import RandomRepo.Xv6.ShGrammar

/-!
# The words of a command line as C strings

`nulterminate` writes a NUL behind every word of the tree.  The character behind a word
is no character of a word, so the terminators do not hit words: each word of the tree,
read as a C string, is the text of its token.
-/

namespace RandomRepo.Xv6.Sh

/-- `argv` of every `execcmd` and `file` of every `redircmd`. -/
def Cmd.words : Cmd → List Word
  | .exec argv => argv
  | .redir cmd file _ _ => cmd.words ++ [file]
  | .pipe left right => left.words ++ right.words
  | .list left right => left.words ++ right.words
  | .back cmd => cmd.words

/-- The characters of a word in the string. -/
def Word.text (w : Word) (s : List Chr) : List UInt8 :=
  ((s.drop w.q).take (w.eq - w.q)).map Subtype.val

/-- The C string at `q` is `cs`. -/
def ReadsAs (buf : Nat → UInt8) : Nat → List UInt8 → Prop
  | q, [] => buf q = 0
  | q, c :: cs => c ≠ 0 ∧ buf q = c ∧ ReadsAs buf (q + 1) cs

/-- A longest run of word characters, in a string that starts at `pos`. -/
structure Spells (pos : Nat) (s : List Chr) (w : Word) : Prop where
  start : pos ≤ w.q
  ordered : w.q ≤ w.eq
  inside : ∀ i, w.q ≤ i → i < w.eq → ∃ c, s[i - pos]? = some c ∧ isWordChar c.val = true
  outside : ∀ c, s[w.eq - pos]? = some c → isWordChar c.val = false

variable {s : List Chr} {c : Chr} {rest : List Chr} {pos k : Nat} {v w : Word} {cmd : Cmd}
  {ts : List Token} {rs : List (Kind × Word)} {ws : List Word}

/-! ## Words in the string -/

theorem Spells.shift (spells : Spells (pos + k) (s.drop k) w) : Spells pos s w := by
  have start := spells.start
  have ordered := spells.ordered
  refine ⟨by omega, ordered, fun i first last => ?_, fun c found => ?_⟩
  · obtain ⟨c, found, word⟩ := spells.inside i first last
    rw [List.getElem?_drop, show k + (i - (pos + k)) = i - pos by omega] at found
    exact ⟨c, found, word⟩
  · refine spells.outside c ?_
    rw [List.getElem?_drop, show k + (w.eq - (pos + k)) = w.eq - pos by omega]
    exact found

theorem Spells.cons {e : Nat} (word : isWordChar c.val = true)
    (spells : Spells (pos + 1) rest ⟨pos + 1, e⟩) : Spells pos (c :: rest) ⟨pos, e⟩ := by
  have whole : Spells pos (c :: rest) ⟨pos + 1, e⟩ := spells.shift (k := 1)
  refine ⟨Nat.le_refl _, Nat.le_of_succ_le spells.ordered, fun i first last => ?_, whole.outside⟩
  by_cases here : i = pos
  · subst here
    exact ⟨c, by simp, word⟩
  · exact whole.inside i (Nat.lt_of_le_of_ne first (Ne.symm here)) last

/-- The run of word characters at the start of a string. -/
theorem spells_takeWhile (pos : Nat) (s : List Chr) :
    Spells pos s ⟨pos, pos + (s.takeWhile fun c => isWordChar c.val).length⟩ := by
  induction s generalizing pos with
  | nil =>
    refine ⟨Nat.le_refl _, Nat.le_refl _, fun i first last => ?_, fun c found => by cases found⟩
    exact absurd last (Nat.not_lt.mpr first)
  | cons c rest ih =>
    cases word : isWordChar c.val with
    | true =>
      rw [List.takeWhile_cons, if_pos word, List.length_cons, Nat.add_comm _ 1, ← Nat.add_assoc]
      exact (ih (pos + 1)).cons word
    | false =>
      rw [List.takeWhile_cons, word, if_neg Bool.false_ne_true]
      refine ⟨Nat.le_refl _, Nat.le_refl _, fun i first last => ?_, fun d found => ?_⟩
      · exact absurd last (Nat.not_lt.mpr first)
      · simp only [List.length_nil, Nat.add_zero, Nat.sub_self, List.getElem?_cons_zero,
          Option.some.injEq] at found
        rw [← found]
        exact word

/-- A word of the lexer is a longest run of word characters. -/
theorem tokens_spells (member : ⟨.word, w⟩ ∈ tokens pos s) : Spells pos s w := by
  fun_induction tokens pos s with
  | case1 => exact absurd member List.not_mem_nil
  | case2 pos c rest blank ih => exact (ih member).shift (k := 1)
  | case3 pos c rest solid double ih =>
    rcases List.mem_cons.mp member with first | later
    · cases first
    · refine Spells.shift (k := 2) ?_
      have drop : (c :: rest).drop 2 = rest.tail := by
        cases rest <;> rfl
      rw [drop]
      exact ih later
  | case4 pos c rest solid single k found ih =>
    rcases List.mem_cons.mp member with first | later
    · cases first
      exact absurd rfl (symbolKind_char found).2.1
    · exact (ih later).shift (k := 1)
  | case5 pos c rest solid single none_ len ih =>
    have word : isWordChar c.val = true := isWordChar_of_none none_ (by simpa using solid)
    rcases List.mem_cons.mp member with first | later
    · cases first
      exact (spells_takeWhile (pos + 1) rest).cons word
    · have shifted := ih later
      rw [Nat.add_assoc] at shifted
      refine Spells.shift (k := 1 + len) ?_
      rw [Nat.add_comm 1 len, List.drop_succ_cons, Nat.add_comm len 1]
      exact shifted

/-! ## The words of a tree -/

theorem Cmd.words_redirected (member : w ∈ (cmd.redirected rs).words) :
    w ∈ cmd.words ∨ w ∈ rs.map Prod.snd := by
  induction rs generalizing cmd with
  | nil => exact .inl member
  | cons r rs ih =>
    have outer : w ∈ ((redirect (some r.1) cmd r.2).redirected rs).words := member
    rcases ih outer with inner | later
    · have split : w ∈ cmd.words ∨ w = r.2 := by
        cases kind : r.1 <;> rw [kind] at inner
        case lt | gt | append => simpa [redirect, Cmd.words] using inner
        all_goals exact .inl inner
      rcases split with inner | rfl
      · exact .inl inner
      · exact .inr List.mem_cons_self
    · exact .inr (List.mem_cons_of_mem _ later)

theorem Cmd.words_backs (n : Nat) (cmd : Cmd) : (cmd.backs n).words = cmd.words := by
  induction n generalizing cmd with
  | zero => rfl
  | succ n ih => exact ih (.back cmd)

theorem Redirs.words (redirs : Redirs ts rs) (member : w ∈ rs.map Prod.snd) : ⟨.word, w⟩ ∈ ts := by
  induction redirs with
  | nil => cases member
  | cons op rest ih =>
    rcases List.mem_cons.mp member with rfl | later
    · exact List.mem_cons_of_mem _ List.mem_cons_self
    · exact List.mem_cons_of_mem _ (List.mem_cons_of_mem _ (ih later))

theorem Args.words (args : Args ts ws rs) (member : w ∈ ws ∨ w ∈ rs.map Prod.snd) :
    ⟨.word, w⟩ ∈ ts := by
  induction args with
  | nil => rcases member with none_ | none_ <;> cases none_
  | @cons v ts us ws rs rs' redirs rest ih =>
    rw [List.mem_cons, List.map_append, List.mem_append] at member
    rcases member with (rfl | later) | first | later
    · exact List.mem_cons_self
    · exact List.mem_cons_of_mem _ (List.mem_append_right _ (ih (.inl later)))
    · exact List.mem_cons_of_mem _ (List.mem_append_left _ (redirs.words first))
    · exact List.mem_cons_of_mem _ (List.mem_append_right _ (ih (.inr later)))

/-- The words of the tree are tokens of the line. -/
theorem Derives.words {n : Nonterminal} (derived : Derives n ts cmd) (member : w ∈ cmd.words) :
    ⟨.word, w⟩ ∈ ts := by
  induction derived with
  | block line redirs ih =>
    refine List.mem_cons_of_mem _ (List.mem_append.mpr ?_)
    rcases Cmd.words_redirected member with inner | outer
    · exact .inl (ih inner)
    · exact .inr (List.mem_cons_of_mem _ (redirs.words outer))
  | simple redirs args few =>
    refine List.mem_append.mpr ?_
    rcases Cmd.words_redirected member with arg | file
    · exact .inr (args.words (.inl arg))
    · rw [List.map_append, List.mem_append] at file
      rcases file with before | behind
      · exact .inl (redirs.words before)
      · exact .inr (args.words (.inr behind))
  | one exec ih => exact ih member
  | pipe exec rest ih ih' =>
    refine List.mem_append.mpr ?_
    rcases List.mem_append.mp member with left | right
    · exact .inl (ih left)
    · exact .inr (List.mem_cons_of_mem _ (ih' right))
  | last pipe only ih =>
    rw [Cmd.words_backs] at member
    exact List.mem_append_left _ (ih member)
  | list pipe only rest ih ih' =>
    refine List.mem_append.mpr ?_
    rcases List.mem_append.mp member with left | right
    · rw [Cmd.words_backs] at left
      exact .inl (ih left)
    · exact .inr (List.mem_append_right _ (List.mem_cons_of_mem _ (ih' right)))

/-! ## The terminators -/

theorem foldl_update (argv : List Word) (buf : Nat → UInt8) (i : Nat) :
    argv.foldl (fun buf w => Function.update buf w.eq 0) buf i =
      if ∃ w ∈ argv, w.eq = i then 0 else buf i := by
  induction argv generalizing buf with
  | nil => simp
  | cons w argv ih =>
    rw [List.foldl_cons, ih]
    by_cases later : ∃ w ∈ argv, w.eq = i
    · obtain ⟨v, member, rfl⟩ := later
      rw [if_pos ⟨v, member, rfl⟩, if_pos ⟨v, List.mem_cons_of_mem _ member, rfl⟩]
    · rw [if_neg later]
      by_cases here : w.eq = i
      · subst here
        rw [Function.update_self, if_pos ⟨w, List.mem_cons_self, rfl⟩]
      · rw [Function.update_of_ne (Ne.symm here), if_neg]
        rintro ⟨v, member, rfl⟩
        rcases List.mem_cons.mp member with rfl | member
        · exact here rfl
        · exact later ⟨v, member, rfl⟩

/-- `nulterminate` writes NULs behind the words of the tree, and nothing else. -/
theorem nulterminate_apply (cmd : Cmd) (buf : Nat → UInt8) (i : Nat) :
    nulterminate cmd buf i = if ∃ w ∈ cmd.words, w.eq = i then 0 else buf i := by
  have both : ∀ left right : Cmd, (∃ w ∈ left.words ++ right.words, w.eq = i) ↔
      (∃ w ∈ right.words, w.eq = i) ∨ ∃ w ∈ left.words, w.eq = i := by
    intro left right
    simp only [List.mem_append, or_and_right, exists_or]
    exact or_comm
  induction cmd generalizing buf with
  | exec argv => exact foldl_update argv buf i
  | redir cmd file mode fd ih =>
    rw [nulterminate]
    by_cases here : i = file.eq
    · subst here
      rw [Function.update_self, if_pos ⟨file, List.mem_append_right _ List.mem_cons_self, rfl⟩]
    · rw [Function.update_of_ne here, ih]
      simp only [Cmd.words, List.mem_append, List.mem_singleton, or_and_right, exists_or,
        exists_eq_left, Ne.symm here, or_false]
  | pipe left right ihl ihr | list left right ihl ihr =>
    rw [nulterminate, ihr, ihl]
    simp only [Cmd.words, both]
    by_cases inRight : ∃ w ∈ right.words, w.eq = i
    · rw [if_pos inRight, if_pos (.inl inRight)]
    · rw [if_neg inRight]
      simp only [inRight, false_or]
  | back cmd ih => exact ih buf

theorem readsAs_slice {buf : Nat → UInt8} (q n : Nat)
    (kept : ∀ i < n, ∃ c, s[q + i]? = some c ∧ buf (q + i) = c.val) (ends : buf (q + n) = 0) :
    ReadsAs buf q (((s.drop q).take n).map Subtype.val) := by
  induction n generalizing q with
  | zero => exact ends
  | succ n ih =>
    obtain ⟨c, found, same⟩ := kept 0 (Nat.succ_pos n)
    rw [Nat.add_zero] at found same
    obtain ⟨less, value⟩ := List.getElem?_eq_some_iff.mp found
    rw [List.drop_eq_getElem_cons less, List.take_succ_cons, List.map_cons, value]
    refine ⟨c.property, same, ih (q + 1) (fun i below => ?_) ?_⟩
    · obtain ⟨d, later, same'⟩ := kept (i + 1) (Nat.succ_lt_succ below)
      rw [Nat.add_assoc, Nat.add_comm 1 i]
      exact ⟨d, later, same'⟩
    · rw [Nat.add_assoc, Nat.add_comm 1 n]
      exact ends

/-- Each word of a tree that has been returned is a token of the string, and its text, up to
the terminator, is the text of the token. -/
theorem nulterminate_harmless (s : List Chr) (fuel : Nat) (cmd : Cmd) (buf : Nat → UInt8)
    (accepted : parsecmd s fuel = some (.ok (cmd, buf))) :
    ∀ w ∈ cmd.words, ⟨.word, w⟩ ∈ tokens 0 s ∧ ReadsAs buf w.q (w.text s) := by
  obtain ⟨derived, rfl⟩ := parsecmd_sound accepted
  intro w member
  have spells : ∀ v ∈ cmd.words, Spells 0 s v := fun v member =>
    tokens_spells (derived.words member)
  have ordered := (spells w member).ordered
  refine ⟨derived.words member, readsAs_slice w.q (w.eq - w.q) (fun i below => ?_) ?_⟩
  · obtain ⟨c, found, word⟩ := (spells w member).inside (w.q + i) (by omega) (by omega)
    rw [Nat.sub_zero] at found
    refine ⟨c, found, ?_⟩
    rw [nulterminate_apply, if_neg]
    · rw [buffer, found]
      rfl
    · -- A terminator inside the word would stand on a word character.
      rintro ⟨v, other, same⟩
      rw [← same] at found
      rw [(spells v other).outside c found] at word
      cases word
  · rw [nulterminate_apply, if_pos ⟨w, member, by omega⟩]

/-- `a>b|c` -/
def tightLine : List Chr :=
  [⟨97, by decide⟩, ⟨62, by decide⟩, ⟨98, by decide⟩, ⟨124, by decide⟩, ⟨99, by decide⟩]

def tightCmd : Cmd := .pipe (.redir (.exec [⟨0, 1⟩]) ⟨2, 3⟩ 0x201 1) (.exec [⟨4, 5⟩])

/-- The terminator of `a` stands on the `>`, that of `b` on the bar. -/
theorem nulterminate_harmless_tight :
    parsecmd tightLine 12 = some (.ok (tightCmd, nulterminate tightCmd (buffer tightLine))) ∧
      ∀ w ∈ tightCmd.words, ⟨.word, w⟩ ∈ tokens 0 tightLine ∧
        ReadsAs (nulterminate tightCmd (buffer tightLine)) w.q (w.text tightLine) :=
  ⟨rfl, nulterminate_harmless tightLine 12 tightCmd _ rfl⟩

end RandomRepo.Xv6.Sh
