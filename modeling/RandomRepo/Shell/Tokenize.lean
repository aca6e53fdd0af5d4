import Mathlib.Data.List.GetD
import Mathlib.Order.Nat
import RandomRepo.Lib.Overlay
import RandomRepo.Lib.Pieces

/-!
# The words of a command line

`tokenize` of `my_shell.c` collects the characters of a word in a scratch buffer and copies it to
a block of its own when a blank follows.  The scratch buffer and the blocks hold 64
characters, the array of words 64 pointers.  Memory is what `malloc` returned, with anything in it,
and every write is checked against the bounds of its block.
-/

namespace RandomRepo.Shell

def maxTokenSize : Nat := 64

def maxNumTokens : Nat := 64

/-- The writes that leave their block. -/
inductive Fault where
  | token
  | strcpy
  | tokens
deriving Repr, DecidableEq

/-- The variables of `tokenize` and the memory they point to.  A pointer of the array is NULL, or
a block with its characters. -/
structure Scan where
  token : Nat → UInt8
  tokens : Nat → Option (Nat → UInt8)
  tokenIndex : Nat
  tokenNo : Nat

/-- A space, a newline or a tab. -/
def isBlank (readChar : UInt8) : Bool := readChar = 32 ∨ readChar = 10 ∨ readChar = 9

/-- `token[tokenIndex] = readChar`. -/
def Scan.put (s : Scan) (readChar : UInt8) : Except Fault Scan :=
  if s.tokenIndex < maxTokenSize then
    .ok { s with token := Function.update s.token s.tokenIndex readChar }
  else .error .token

/-- The loop of `strcpy` into a block, with the number of cells that are left in it. -/
def strcpyLoop (src : Nat → UInt8) : Nat → Nat → (Nat → UInt8) → Except Fault (Nat → UInt8)
  | 0, _, _ => .error .strcpy
  | left + 1, j, dst =>
    if src j = 0 then .ok (Function.update dst j 0)
    else strcpyLoop src left (j + 1) (Function.update dst j (src j))

def strcpy (dst src : Nat → UInt8) : Except Fault (Nat → UInt8) :=
  strcpyLoop src maxTokenSize 0 dst

/-- `tokens[tokenNo] = entry`. -/
def Scan.setToken (s : Scan) (entry : Option (Nat → UInt8)) : Except Fault Scan :=
  if s.tokenNo < maxNumTokens then .ok { s with tokens := Function.update s.tokens s.tokenNo entry }
  else .error .tokens

/-- A word is complete: it is copied to the block that `malloc` returns. -/
def Scan.complete (s : Scan) (fresh : Nat → Nat → UInt8) : Except Fault Scan := do
  let s ← s.setToken (some (fresh s.tokenNo))
  let block ← strcpy (fresh s.tokenNo) s.token
  return { s with
    tokens := Function.update s.tokens s.tokenNo (some block)
    tokenNo := s.tokenNo + 1
    tokenIndex := 0 }

/-- The body of the loop. -/
def Scan.read (fresh : Nat → Nat → UInt8) (s : Scan) (readChar : UInt8) : Except Fault Scan :=
  if isBlank readChar then do
    let s ← s.put 0
    if s.tokenIndex ≠ 0 then s.complete fresh else return s
  else do
    let s ← s.put readChar
    return { s with tokenIndex := s.tokenIndex + 1 }

/-- `tokenize`, with the array and the scratch buffer as they are allocated, and the block for
each word. -/
def tokenize (token : Nat → UInt8) (tokens : Nat → Option (Nat → UInt8)) (fresh : Nat → Nat → UInt8)
    (line : List UInt8) : Except Fault (Nat → Option (Nat → UInt8)) := do
  let s ← line.foldlM (Scan.read fresh) ⟨token, tokens, 0, 0⟩
  let s ← s.setToken none
  return s.tokens

/-! ## Words in memory -/

section Words

variable {src dst block : Nat → UInt8} {word : List UInt8} {left j d : Nat}

/-- The block holds the word and the NUL that ends it. -/
def CString (block : Nat → UInt8) (word : List UInt8) : Prop :=
  0 ∉ word ∧ ∀ j ≤ word.length, block j = word.getD j 0

/-- The array holds the words from place `n` on. -/
def Stored (tokens : Nat → Option (Nat → UInt8)) (n : Nat) (words : List (List UInt8)) : Prop :=
  ∀ j word, words[j]? = some word → ∃ block, tokens (n + j) = some block ∧ CString block word

/-- The array of the words, with the NULL that ends it. -/
def Argv (tokens : Nat → Option (Nat → UInt8)) (words : List (List UInt8)) : Prop :=
  Stored tokens 0 words ∧ tokens words.length = none

theorem strcpyLoop_returns (inside : d < left) (nul : src (j + d) = 0) :
    ∃ block, strcpyLoop src left j dst = .ok block := by
  induction left generalizing j d dst with
  | zero => exact absurd inside (Nat.not_lt_zero d)
  | succ left ih =>
    rw [strcpyLoop]
    split_ifs with here
    · exact ⟨_, rfl⟩
    · have later : d ≠ 0 := fun zero => here (by rwa [zero] at nul)
      exact ih (show d - 1 < left by omega) (by rwa [show j + 1 + (d - 1) = j + d by omega])

/-- The cells up to the NUL are copied. -/
theorem strcpyLoop_copies (run : strcpyLoop src left j dst = .ok block)
    (clear : ∀ i < d, src (j + i) ≠ 0) (nul : src (j + d) = 0) (x : Nat) :
    block x = if j ≤ x ∧ x ≤ j + d then src x else dst x := by
  induction left generalizing j d dst with
  | zero => cases run
  | succ left ih =>
    rw [strcpyLoop] at run
    split_ifs at run with here
    · cases run
      have first : d = 0 := by
        by_contra later
        exact clear 0 (by omega) here
      by_cases last : x = j
      · rw [last, Function.update_self, if_pos (by omega), here]
      · rw [Function.update_of_ne last, if_neg (by omega)]
    · have later : d ≠ 0 := fun zero => here (by rwa [zero] at nul)
      obtain ⟨d, rfl⟩ : ∃ e, d = e + 1 := ⟨d - 1, by omega⟩
      have shift : ∀ i, j + 1 + i = j + (i + 1) := fun i => by omega
      have clear' : ∀ i < d, src (j + 1 + i) ≠ 0 := fun i lower => by
        rw [shift]
        exact clear (i + 1) (by omega)
      rw [ih run clear' (by rwa [shift])]
      by_cases first : x = j
      · rw [first, if_neg (by omega), Function.update_self, if_pos (by omega)]
      · rw [Function.update_of_ne first]
        split_ifs with inside inside' inside'
        · rfl
        · omega
        · omega
        · rfl

theorem strcpy_cstring (clear : 0 ∉ word) (holds : ∀ j ≤ word.length, src j = word.getD j 0)
    (run : strcpy dst src = .ok block) : CString block word := by
  refine ⟨clear, fun j inside => ?_⟩
  have copied := strcpyLoop_copies run (d := word.length) (fun i lower => ?_) ?_ j
  · rw [copied, if_pos (by omega), holds j inside]
  · rw [Nat.zero_add, holds i lower.le, List.getD_eq_getElem word 0 lower]
    exact fun zero => clear (zero ▸ List.getElem_mem lower)
  · rw [Nat.zero_add, holds word.length le_rfl]
    exact List.getD_eq_default word 0 le_rfl

end Words

/-! ## One word -/

section Step

variable {fresh : Nat → Nat → UInt8} {s t : Scan} {word rest : List UInt8} {a : UInt8}

/-- The characters of a word go to the scratch buffer. -/
theorem read_word (solid : ∀ x ∈ word, isBlank x = false) (inside : s.tokenIndex ≤ maxTokenSize) :
    word.foldlM (Scan.read fresh) s =
      if s.tokenIndex + word.length ≤ maxTokenSize then
        .ok { s with
          token := overlay s.token s.tokenIndex word
          tokenIndex := s.tokenIndex + word.length }
      else .error .token := by
  induction word generalizing s with
  | nil =>
    rw [List.foldlM_nil, List.length_nil, Nat.add_zero, if_pos inside, overlay_nil]
    rfl
  | cons x word ih =>
    have plain := solid x List.mem_cons_self
    rw [List.foldlM_cons, List.length_cons]
    unfold Scan.read Scan.put
    rw [plain, if_neg Bool.false_ne_true]
    by_cases room : s.tokenIndex < maxTokenSize
    · rw [if_pos room]
      show word.foldlM (Scan.read fresh) { s with
        token := Function.update s.token s.tokenIndex x, tokenIndex := s.tokenIndex + 1 } = _
      have whole : overlay (Function.update s.token s.tokenIndex x) (s.tokenIndex + 1) word =
          overlay s.token s.tokenIndex (x :: word) := by
        rw [← overlay_singleton]
        exact overlay_append
      rw [ih (fun y member => solid y (List.mem_cons_of_mem x member)) (by exact room)]
      dsimp only
      rw [whole, Nat.add_right_comm, Nat.add_assoc]
    · rw [if_neg room, if_neg (by omega)]
      rfl

theorem read_blank (here : isBlank a = true) (short : s.tokenIndex < maxTokenSize) :
    Scan.read fresh s a =
      if s.tokenIndex ≠ 0 then
        Scan.complete { s with token := Function.update s.token s.tokenIndex 0 } fresh
      else .ok { s with token := Function.update s.token s.tokenIndex 0 } := by
  unfold Scan.read Scan.put
  rw [if_pos here, if_pos short]
  rfl

theorem read_blank_fault (here : isBlank a = true) (long : ¬ s.tokenIndex < maxTokenSize) :
    Scan.read fresh s a = .error .token := by
  unfold Scan.read Scan.put
  rw [if_pos here, if_neg long]
  rfl

/-- The copy of a word that ends inside the scratch buffer. -/
theorem complete_ok (room : s.tokenNo < maxNumTokens) (short : word.length < maxTokenSize)
    (holds : ∀ j ≤ word.length, s.token j = word.getD j 0) : ∃ block,
      (0 ∉ word → CString block word) ∧ s.complete fresh = .ok { s with
        tokens := Function.update s.tokens s.tokenNo (some block)
        tokenNo := s.tokenNo + 1
        tokenIndex := 0 } := by
  have nul : s.token (0 + word.length) = 0 := by
    rw [Nat.zero_add, holds word.length le_rfl]
    exact List.getD_eq_default word 0 le_rfl
  obtain ⟨block, run⟩ := @strcpyLoop_returns s.token (fresh s.tokenNo) _ _ _ short nul
  refine ⟨block, fun clear => strcpy_cstring clear holds run, ?_⟩
  unfold Scan.complete Scan.setToken
  rw [if_pos room]
  simp only [bind, Except.bind]
  unfold strcpy
  rw [run]
  dsimp only
  rw [Function.update_idem]
  rfl

theorem complete_fault (full : ¬ s.tokenNo < maxNumTokens) :
    s.complete fresh = .error .tokens := by
  unfold Scan.complete Scan.setToken
  rw [if_neg full]
  rfl

/-- The scratch buffer after the NUL is written behind a word. -/
theorem scratch_holds {f : Nat → UInt8} (j : Nat) (upto : j ≤ word.length) :
    Function.update (overlay f 0 word) word.length 0 j = word.getD j 0 := by
  by_cases last : j = word.length
  · rw [last, Function.update_self]
    exact (List.getD_eq_default word 0 le_rfl).symm
  · rw [Function.update_of_ne last, overlay_inside 0 (Nat.zero_le j) (by omega), Nat.sub_zero]

/-- What the loop does with a word and the blank after it. -/
theorem read_cut (start : s.tokenIndex = 0) (solid : ∀ x ∈ word, isBlank x = false)
    (here : isBlank a = true) :
    (word = [] ∧ ∃ t : Scan, t.tokenIndex = 0 ∧ t.tokenNo = s.tokenNo ∧ t.tokens = s.tokens ∧
      (word ++ a :: rest).foldlM (Scan.read fresh) s = rest.foldlM (Scan.read fresh) t) ∨
    (word ≠ [] ∧ (word.length < maxTokenSize ∧ s.tokenNo < maxNumTokens) ∧ ∃ (t : Scan) (block : _),
      t.tokenIndex = 0 ∧ t.tokenNo = s.tokenNo + 1 ∧
      t.tokens = Function.update s.tokens s.tokenNo (some block) ∧ (0 ∉ word → CString block word) ∧
      (word ++ a :: rest).foldlM (Scan.read fresh) s = rest.foldlM (Scan.read fresh) t) ∨
    (word ≠ [] ∧ ¬ (word.length < maxTokenSize ∧ s.tokenNo < maxNumTokens) ∧
      ∃ e, (word ++ a :: rest).foldlM (Scan.read fresh) s = .error e) := by
  have size : maxTokenSize = 64 := rfl
  have first := @read_word fresh s word solid (by omega)
  rw [start, Nat.zero_add] at first
  have step : (word ++ a :: rest).foldlM (Scan.read fresh) s =
      word.foldlM (Scan.read fresh) s >>= fun u => Scan.read fresh u a >>= fun v =>
        rest.foldlM (Scan.read fresh) v := List.foldlM_append
  by_cases short : word.length < maxTokenSize
  · rw [if_pos short.le] at first
    have second := @read_blank fresh { s with
      token := overlay s.token 0 word, tokenIndex := word.length } a here short
    rw [first] at step
    change _ = (Scan.read fresh _ a >>= _) at step
    rw [second] at step
    by_cases none_ : word = []
    · left
      rw [if_neg (not_not.mpr (by rw [none_]; rfl))] at step
      refine ⟨none_, _, ?_, ?_, ?_, step⟩
      · rw [none_]
        rfl
      · rfl
      · rfl
    · right
      have some_ : word.length ≠ 0 := fun zero => none_ (List.length_eq_zero_iff.mp zero)
      rw [if_pos some_] at step
      by_cases room : s.tokenNo < maxNumTokens
      · left
        obtain ⟨block, holds, complete⟩ := @complete_ok fresh { s with
            token := Function.update (overlay s.token 0 word) word.length 0
            tokenIndex := word.length } word room short
          scratch_holds
        rw [complete] at step
        refine ⟨none_, ⟨short, room⟩, _, block, ?_, ?_, ?_, holds, step⟩
        · rfl
        · rfl
        · rfl
      · right
        rw [complete_fault] at step
        · exact ⟨none_, fun both => room both.2, _, step⟩
        · exact room
  · right
    right
    refine ⟨fun empty => short (by rw [empty]; decide), fun both => short both.1, .token, ?_⟩
    by_cases full : word.length ≤ maxTokenSize
    · rw [if_pos full] at first
      rw [step, first]
      change (Scan.read fresh _ a >>= _) = _
      rw [read_blank_fault here short]
      rfl
    · rw [if_neg full] at first
      rw [step, first]
      rfl

end Step

/-! ## Whole lines -/

section Line

variable {fresh : Nat → Nat → UInt8} {s t : Scan} {line : List UInt8} {n : Nat}
  {token : Nat → UInt8} {tokens : Nat → Option (Nat → UInt8)}

/-- The words of a line fit into their blocks, and into the array from place `n` on.  There is
no NUL behind the characters after the last blank. -/
def Fits (n : Nat) (line : List UInt8) : Prop :=
  (∀ word ∈ closedRuns isBlank line, word.length < maxTokenSize) ∧
    (openRun isBlank line).length ≤ maxTokenSize ∧
    (closedRuns isBlank line = [] ∨ n + (closedRuns isBlank line).length ≤ maxNumTokens)

theorem scan_iff (start : s.tokenIndex = 0) :
    (∃ t, line.foldlM (Scan.read fresh) s = .ok t) ↔ Fits s.tokenNo line := by
  unfold Fits
  induction line using cut_induction isBlank generalizing s with
  | solid word solid =>
    rw [read_word solid (by rw [start]; exact Nat.zero_le _), start, Nat.zero_add,
      closedRuns_solid solid, openRun_solid solid]
    split_ifs with inside
    · exact iff_of_true ⟨_, rfl⟩ ⟨fun other member => absurd member List.not_mem_nil, inside, Or.inl rfl⟩
    · exact iff_of_false (fun ⟨t, run⟩ => nomatch run) (fun fits => inside fits.2.1)
  | cut word a rest solid here ih =>
    rw [closedRuns_cut solid here, openRun_cut here]
    rcases @read_cut fresh s word rest a start solid here with
      ⟨none_, t, index, number, -, run⟩ | ⟨some_, ⟨short, room⟩, t, block, index, number, -, -, run⟩ |
      ⟨some_, fault, e, run⟩
    · rw [run, ih index, number, if_pos none_, List.nil_append]
    · rw [run, ih index, number, if_neg some_, List.singleton_append, List.forall_mem_cons,
        List.length_cons]
      constructor
      · rintro ⟨each, last, count⟩
        refine ⟨⟨short, each⟩, last, Or.inr ?_⟩
        rcases count with none_ | count
        · rw [none_, List.length_nil]
          omega
        · omega
      · rintro ⟨⟨-, each⟩, last, none_ | count⟩
        · cases none_
        · exact ⟨each, last, Or.inr (by omega)⟩
    · rw [run, if_neg some_, List.singleton_append, List.forall_mem_cons, List.length_cons]
      refine iff_of_false (fun ⟨t, run⟩ => nomatch run) ?_
      rintro ⟨⟨short, -⟩, -, none_ | count⟩
      · cases none_
      · exact fault ⟨short, by omega⟩

/-- The words that are complete are in the array. -/
theorem scan_ok (start : s.tokenIndex = 0) (run : line.foldlM (Scan.read fresh) s = .ok t) :
    t.tokenNo = s.tokenNo + (closedRuns isBlank line).length ∧
      (∀ k < s.tokenNo, t.tokens k = s.tokens k) ∧
      (0 ∉ line → Stored t.tokens s.tokenNo (closedRuns isBlank line)) := by
  induction line using cut_induction isBlank generalizing s with
  | solid word solid =>
    rw [read_word solid (by rw [start]; exact Nat.zero_le _)] at run
    split_ifs at run
    cases run
    rw [closedRuns_solid solid]
    exact ⟨rfl, fun _ _ => rfl, fun _ j word some_ => nomatch some_⟩
  | cut word a rest solid here ih =>
    rw [closedRuns_cut solid here, List.mem_append, List.mem_cons, not_or, not_or]
    rcases @read_cut fresh s word rest a start solid here with
      ⟨none_, u, index, number, same, step⟩ | ⟨some_, -, u, block, index, number, same, holds, step⟩ |
      ⟨some_, -, e, step⟩
    · rw [step] at run
      rw [if_pos none_, List.nil_append, ← number, ← same]
      obtain ⟨count, frame, stored⟩ := ih index run
      exact ⟨count, frame, fun clear => stored clear.2.2⟩
    · rw [step] at run
      obtain ⟨count, frame, stored⟩ := ih index run
      rw [number] at count frame stored
      rw [if_neg some_, List.singleton_append, List.length_cons]
      refine ⟨by omega, fun k lower => ?_, fun clear j other place => ?_⟩
      · rw [frame k (by omega), same, Function.update_of_ne (by omega)]
      · cases j with
        | zero =>
          cases place
          refine ⟨block, ?_, holds clear.1⟩
          rw [Nat.add_zero, frame s.tokenNo (by omega), same, Function.update_self]
        | succ j =>
          rw [show s.tokenNo + (j + 1) = s.tokenNo + 1 + j by omega]
          exact stored clear.2.2 j other place
    · rw [step] at run
      cases run

/-- The words of a line fit into their blocks and into the array. -/
def InBounds (line : List UInt8) : Prop :=
  (∀ word ∈ closedRuns isBlank line, word.length < maxTokenSize) ∧
    (openRun isBlank line).length ≤ maxTokenSize ∧
    (closedRuns isBlank line).length < maxNumTokens

theorem tokenize_of_scan (run : line.foldlM (Scan.read fresh) ⟨token, tokens, 0, 0⟩ = .ok t) :
    tokenize token tokens fresh line =
      if (closedRuns isBlank line).length < maxNumTokens then
        .ok (Function.update t.tokens (closedRuns isBlank line).length none)
      else .error .tokens := by
  have count : t.tokenNo = (closedRuns isBlank line).length :=
    (scan_ok rfl run).1.trans (Nat.zero_add _)
  unfold tokenize
  rw [run]
  show (t.setToken none >>= fun s => pure s.tokens) = _
  unfold Scan.setToken
  rw [count]
  split_ifs
  · rfl
  · rfl

/-- The writes of `tokenize` stay inside their blocks just if the words of the line fit. -/
theorem tokenize_iff_inBounds (token : Nat → UInt8) (tokens : Nat → Option (Nat → UInt8))
    (fresh : Nat → Nat → UInt8) (line : List UInt8) :
    (∃ tokens', tokenize token tokens fresh line = .ok tokens') ↔ InBounds line := by
  have scan := @scan_iff fresh ⟨token, tokens, 0, 0⟩ line rfl
  unfold Fits at scan
  unfold InBounds
  constructor
  · rintro ⟨tokens', run⟩
    cases scanned : line.foldlM (Scan.read fresh) ⟨token, tokens, 0, 0⟩ with
    | error fault =>
      unfold tokenize at run
      rw [scanned] at run
      cases run
    | ok t =>
      rw [tokenize_of_scan scanned] at run
      split_ifs at run with count
      obtain ⟨each, last, -⟩ := scan.mp ⟨t, scanned⟩
      exact ⟨each, last, count⟩
  · rintro ⟨each, last, count⟩
    obtain ⟨t, scanned⟩ := scan.mpr ⟨each, last, Or.inr (by rw [Nat.zero_add]; exact count.le)⟩
    rw [tokenize_of_scan scanned, if_pos count]
    exact ⟨_, rfl⟩

/-- A word of 64 letters, in a line of 65 characters: there is no place for its NUL. -/
theorem tokenize_long_word : ∃ line : List UInt8, line.length ≤ 1023 ∧ 0 ∉ line ∧
    line.getLast? = some 10 ∧
    tokenize (fun _ => 0) (fun _ => none) (fun _ _ => 0) line = .error .token :=
  ⟨List.replicate 64 97 ++ [10], by decide, by decide, by decide, rfl⟩

theorem tokenize_closed (clear : 0 ∉ line) (closed : openRun isBlank line = [])
    (short : ∀ word ∈ closedRuns isBlank line, word.length ≤ maxTokenSize - 1)
    (few : (closedRuns isBlank line).length ≤ maxNumTokens - 1) : ∃ tokens',
      tokenize token tokens fresh line = .ok tokens' ∧ Argv tokens' (closedRuns isBlank line) := by
  have size : maxTokenSize = 64 := rfl
  have number : maxNumTokens = 64 := rfl
  have fits : Fits 0 line := by
    refine ⟨fun word member => ?_, by rw [closed]; exact Nat.zero_le _, Or.inr (by omega)⟩
    have bound := short word member
    omega
  obtain ⟨t, run⟩ := (@scan_iff fresh ⟨token, tokens, 0, 0⟩ line rfl).mpr fits
  obtain ⟨-, -, stored⟩ := scan_ok rfl run
  refine ⟨_, by rw [tokenize_of_scan run, if_pos (by omega)], fun j word place => ?_, ?_⟩
  · obtain ⟨block, cell, holds⟩ := stored clear j word place
    have inside : j < (closedRuns isBlank line).length := by
      by_contra outside
      rw [List.getElem?_eq_none (by omega)] at place
      cases place
    refine ⟨block, ?_, holds⟩
    rw [Function.update_of_ne (by omega)]
    exact cell
  · exact Function.update_self ..

/-- `tokenize` returns the maximal runs of characters that are not blank, and the words that a line
was put together from. -/
theorem tokenize_runs (token : Nat → UInt8) (tokens : Nat → Option (Nat → UInt8))
    (fresh : Nat → Nat → UInt8) :
    (∀ line, 0 ∉ line → line.getLast? = some 10 →
      (∀ word ∈ runs isBlank line, word.length ≤ maxTokenSize - 1) →
      (runs isBlank line).length ≤ maxNumTokens - 1 → ∃ tokens',
        tokenize token tokens fresh line = .ok tokens' ∧ Argv tokens' (runs isBlank line)) ∧
    (∀ (lead : List UInt8) (words : List (List UInt8 × List UInt8)),
      (∀ x ∈ lead, isBlank x = true) →
      (∀ word ∈ words, word.1 ≠ [] ∧ ∀ x ∈ word.1, isBlank x = false) →
      (∀ word ∈ words, 0 ∉ word.1 ∧ word.1.length ≤ maxTokenSize - 1) →
      (∀ word ∈ words, word.2 ≠ [] ∧ ∀ x ∈ word.2, isBlank x = true) →
      words.length ≤ maxNumTokens - 1 → ∃ tokens',
        tokenize token tokens fresh (lead ++ spaced words) = .ok tokens' ∧
          Argv tokens' (words.map Prod.fst)) := by
  constructor
  · intro line clear newline short few
    obtain ⟨front, rfl⟩ := List.getLast?_eq_some_iff.mp newline
    have here : isBlank 10 = true := rfl
    rw [← closedRuns_concat here] at short few ⊢
    exact tokenize_closed clear (openRun_concat here) short few
  · intro lead words gap solid fine blanks few
    obtain ⟨closed, opened⟩ := @runs_blanks _ isBlank (spaced words) lead gap
    obtain ⟨closed', opened'⟩ := runs_spaced solid blanks
    rw [closed'] at closed
    rw [opened'] at opened
    rw [← closed]
    refine tokenize_closed ?_ opened ?_ ?_
    · intro nul
      rcases List.mem_append.mp nul with nul | nul
      · exact absurd (gap 0 nul) (by decide)
      · obtain ⟨word, member, nul⟩ := List.mem_flatMap.mp nul
        rcases List.mem_append.mp nul with nul | nul
        · exact (fine word member).1 nul
        · exact absurd ((blanks word member).2 0 nul) (by decide)
    · rw [closed]
      exact List.forall_mem_map.mpr fun word member => (fine word member).2
    · rw [closed, List.length_map]
      exact few

/-- The line `ls -l`, and two words after a space. -/
theorem tokenize_runs_two : (∃ tokens,
      tokenize (fun _ => 7) (fun _ => none) (fun _ _ => 7) [108, 115, 32, 45, 108, 10] = .ok tokens ∧
        Argv tokens [[108, 115], [45, 108]]) ∧
    ∃ tokens, tokenize (fun _ => 7) (fun _ => none) (fun _ _ => 7)
        ([32] ++ spaced [([97, 98], [9, 32]), ([99], [10])]) = .ok tokens ∧
      Argv tokens [[97, 98], [99]] := by
  obtain ⟨first, second⟩ := tokenize_runs (fun _ => 7) (fun _ => none) (fun _ _ => 7)
  exact ⟨first [108, 115, 32, 45, 108, 10] (by decide) rfl (by decide) (by decide),
    second [32] [([97, 98], [9, 32]), ([99], [10])] (by decide +kernel) (by decide +kernel)
      (by decide) (by decide +kernel) (by decide)⟩

end Line

end RandomRepo.Shell
