import Mathlib.Computability.Language

/-!
# The matcher of `grep`

`match`, `matchhere` and `matchstar` of `grep.c` search for a pattern by backtracking.  A string
is the list of the bytes before its NUL, so that the tests for `'\0'` are tests for the end of the
list.  A pattern is read into a language: items that stand for a character or for repetitions
of one, with `^` and `$` only at the ends.  The matcher decides whether some part of the text is in
the language.
-/

namespace RandomRepo.Xv6.Grep

open Computability

variable {c t : UInt8} {re text : List UInt8}

def caret : UInt8 := 94

def dollar : UInt8 := 36

def star : UInt8 := 42

def dot : UInt8 := 46

/-! ## The code -/

mutual

/-- Search for `re` at the beginning of `text`. -/
def matchhere (re text : List UInt8) : Bool :=
  match re with
  | [] => true
  | c :: re =>
    if re.head? = some star then matchstar c re.tail text
    else if c = dollar ∧ re = [] then text.isEmpty
    else
      match text with
      | [] => false
      | t :: text => decide (c = dot ∨ c = t) && matchhere re text
termination_by (re.length, text.length, 0)
decreasing_by
  · exact Prod.Lex.left _ _ (by rw [List.length_cons, List.length_tail]; omega)
  · decreasing_tactic

/-- Search for `c*re` at the beginning of `text`. -/
def matchstar (c : UInt8) (re text : List UInt8) : Bool :=
  matchhere re text ||
    match text with
    | [] => false
    | t :: text => decide (t = c ∨ c = dot) && matchstar c re text
termination_by (re.length, text.length, 1)

end

/-- The loop of `match`, which looks at the empty string too. -/
def matchLoop (re : List UInt8) : List UInt8 → Bool
  | [] => matchhere re []
  | t :: text => matchhere re (t :: text) || matchLoop re text

def match_ (re text : List UInt8) : Bool :=
  if re.head? = some caret then matchhere re.tail text else matchLoop re text

/-! ## The language of a pattern -/

inductive Item where
  | one (c : UInt8)
  | many (c : UInt8)
deriving Repr, DecidableEq

/-- A pattern as it is read: what it repeats, and which ends of the text it is bound to. -/
structure Pattern where
  fromStart : Bool
  items : List Item
  toEnd : Bool
deriving Repr, DecidableEq

/-- The items of a pattern.  A `*` that follows a character repeats it, whatever the character,
and a `$` is the end of the text if it is the last character and no `*` follows. -/
def items : List UInt8 → List Item × Bool
  | [] => ([], false)
  | [c] => if c = dollar then ([], true) else ([.one c], false)
  | c :: d :: re =>
    if d = star then (.many c :: (items re).1, (items re).2)
    else (.one c :: (items (d :: re)).1, (items (d :: re)).2)

/-- A `^` is the beginning of the text only as the first character. -/
def parse (re : List UInt8) : Pattern :=
  if re.head? = some caret then ⟨true, (items re.tail).1, (items re.tail).2⟩
  else ⟨false, (items re).1, (items re).2⟩

/-- The character `c` itself, or any one if it is a dot. -/
def character (c : UInt8) : Language UInt8 := {w | ∃ t, w = [t] ∧ (c = dot ∨ c = t)}

def Item.language : Item → Language UInt8
  | .one c => character c
  | .many c => (character c)∗

def language : List Item → Language UInt8
  | [] => 1
  | item :: rest => item.language * language rest

/-- Some part of the text is in the language of the pattern, at the ends that the pattern asks
for. -/
def Pattern.Matches (p : Pattern) (text : List UInt8) : Prop :=
  ∃ before part after, text = before ++ part ++ after ∧ part ∈ language p.items ∧
    (p.fromStart = true → before = []) ∧ (p.toEnd = true → after = [])

/-! ## Languages of lists -/

/-- The text begins with a word of the language, and the rest has the property. -/
def Begins (l : Language UInt8) (rest : List UInt8 → Prop) (text : List UInt8) : Prop :=
  ∃ word after, text = word ++ after ∧ word ∈ l ∧ rest after

theorem begins_congr {l : Language UInt8} {rest rest' : List UInt8 → Prop}
    (same : ∀ after, rest after ↔ rest' after) : Begins l rest text ↔ Begins l rest' text := by
  rw [show rest = rest' from funext fun after => propext (same after)]

theorem begins_one {rest : List UInt8 → Prop} : Begins 1 rest text ↔ rest text := by
  constructor
  · rintro ⟨word, after, rfl, empty, holds⟩
    rw [(Language.mem_one word).mp empty, List.nil_append]
    exact holds
  · intro holds
    exact ⟨[], text, rfl, Language.nil_mem_one, holds⟩

theorem begins_mul {l m : Language UInt8} {rest : List UInt8 → Prop} :
    Begins (l * m) rest text ↔ Begins l (Begins m rest) text := by
  constructor
  · rintro ⟨_, after, rfl, member, holds⟩
    obtain ⟨x, first, y, second, rfl⟩ := Language.mem_mul.mp member
    exact ⟨x, y ++ after, List.append_assoc x y after, first, y, after, rfl, second, holds⟩
  · rintro ⟨x, _, rfl, first, y, after, rfl, second, holds⟩
    exact ⟨x ++ y, after, (List.append_assoc x y after).symm,
      Language.append_mem_mul first second, holds⟩

theorem begins_character_nil {rest : List UInt8 → Prop} : ¬ Begins (character c) rest [] := by
  rintro ⟨_, after, text, ⟨t, rfl, -⟩, -⟩
  cases text

theorem begins_character_cons {rest : List UInt8 → Prop} :
    Begins (character c) rest (t :: text) ↔ (c = dot ∨ c = t) ∧ rest text := by
  constructor
  · rintro ⟨_, after, whole, ⟨u, rfl, fits⟩, holds⟩
    cases whole
    exact ⟨fits, holds⟩
  · rintro ⟨fits, holds⟩
    exact ⟨[t], text, rfl, ⟨t, rfl, fits⟩, holds⟩

/-- Repetitions of a character are none, or one and more of them. -/
theorem begins_repeat {rest : List UInt8 → Prop} : Begins (character c)∗ rest text ↔
    rest text ∨ Begins (character c) (Begins (character c)∗ rest) text := by
  rw [← begins_mul]
  have unfolded := Language.one_add_self_mul_kstar_eq_kstar (character c)
  constructor
  · rintro ⟨word, after, rfl, member, holds⟩
    rw [← unfolded, Language.mem_add, Language.mem_one] at member
    rcases member with rfl | member
    · exact Or.inl holds
    · exact Or.inr ⟨word, after, rfl, member, holds⟩
  · rintro (holds | ⟨word, after, rfl, member, holds⟩)
    · exact ⟨[], text, rfl, Language.nil_mem_kstar _, holds⟩
    · refine ⟨word, after, rfl, ?_, holds⟩
      rw [← unfolded, Language.mem_add]
      exact Or.inr member

/-! ## The matcher decides the language -/

/-- What may follow the items of a pattern. -/
def Rest (toEnd : Bool) (after : List UInt8) : Prop := toEnd = true → after = []

/-- The text begins with the pattern. -/
def Here (re text : List UInt8) : Prop :=
  Begins (language (items re).1) (Rest (items re).2) text

theorem matchstar_iff (here : ∀ text, matchhere re text = true ↔ Here re text) :
    matchstar c re text = true ↔ Begins (character c)∗ (Here re) text := by
  induction text with
  | nil =>
    rw [matchstar, begins_repeat, Bool.or_false, here]
    exact (or_iff_left begins_character_nil).symm
  | cons t text ih =>
    rw [matchstar, begins_repeat, begins_character_cons, Bool.or_eq_true, Bool.and_eq_true,
      decide_eq_true_eq, here, ih, or_comm (b := c = dot), eq_comm (a := t)]

theorem matchhere_star : matchhere (c :: star :: re) text = matchstar c re text := by
  rw [matchhere.eq_def]
  exact if_pos rfl

/-- A final `$` is the end of the text. -/
theorem matchhere_dollar : matchhere [dollar] text = text.isEmpty := by
  rw [matchhere.eq_def]
  exact (if_neg (by decide)).trans (if_pos ⟨rfl, rfl⟩)

/-- The last test of `matchhere`: a character that matches itself, or a dot. -/
theorem matchhere_character (single : re.head? ≠ some star) (literal : ¬ (c = dollar ∧ re = [])) :
    matchhere (c :: re) text = true ↔
      Begins (character c) (fun after => matchhere re after = true) text := by
  rw [matchhere.eq_def]
  dsimp only
  rw [if_neg single, if_neg literal]
  cases text with
  | nil => exact iff_of_false Bool.false_ne_true begins_character_nil
  | cons t text => rw [begins_character_cons, Bool.and_eq_true, decide_eq_true_eq]

theorem matchhere_nil : matchhere [] text = true ↔ Begins (language []) (Rest false) text := by
  rw [matchhere, language, begins_one]
  exact iff_of_true rfl (fun bound => absurd bound Bool.false_ne_true)

theorem matchhere_iff : matchhere re text = true ↔ Here re text := by
  unfold Here
  -- The cases are those of the reading of the pattern.
  fun_induction items re generalizing text with
  | case1 => exact matchhere_nil
  | case2 =>
    rw [matchhere_dollar, language, begins_one, List.isEmpty_iff]
    exact ⟨fun empty _ => empty, fun rest => rest rfl⟩
  | case3 c literal =>
    rw [matchhere_character (by decide) (fun last => literal last.1), language, begins_mul]
    exact begins_congr fun _ => matchhere_nil
  | case4 c re ih =>
    rw [matchhere_star, matchstar_iff (fun _ => ih), language, begins_mul]
    rfl
  | case5 c d re single ih =>
    have next : (d :: re).head? ≠ some star := fun head => single (Option.some.inj head)
    rw [matchhere_character next (fun last => List.cons_ne_nil d re last.2), language, begins_mul]
    exact begins_congr fun _ => ih

/-- Some suffix of the text. -/
theorem matchLoop_iff : matchLoop re text = true ↔
    ∃ before after, text = before ++ after ∧ matchhere re after = true := by
  induction text with
  | nil =>
    rw [matchLoop]
    constructor
    · intro here
      exact ⟨[], [], rfl, here⟩
    · rintro ⟨before, after, empty, here⟩
      rwa [(List.append_eq_nil_iff.mp empty.symm).2] at here
  | cons t text ih =>
    rw [matchLoop, Bool.or_eq_true, ih]
    constructor
    · rintro (here | ⟨before, after, rfl, here⟩)
      · exact ⟨[], t :: text, rfl, here⟩
      · exact ⟨t :: before, after, rfl, here⟩
    · rintro ⟨before, after, whole, here⟩
      cases before with
      | nil =>
        rw [List.nil_append] at whole
        rw [whole]
        exact Or.inl here
      | cons u before =>
        cases whole
        exact Or.inr ⟨before, after, rfl, here⟩

/-- `match` returns 1 exactly for the texts of which some part is in the language of the
pattern. -/
theorem match_iff (re text : List UInt8) : match_ re text = true ↔ (parse re).Matches text := by
  unfold match_ parse Pattern.Matches
  split_ifs with anchored
  · rw [matchhere_iff]
    constructor
    · rintro ⟨part, after, rfl, member, rest⟩
      exact ⟨[], part, after, rfl, member, fun _ => rfl, rest⟩
    · rintro ⟨before, part, after, rfl, member, start, rest⟩
      rw [start rfl]
      exact ⟨part, after, rfl, member, rest⟩
  · rw [matchLoop_iff]
    constructor
    · rintro ⟨before, _, rfl, here⟩
      obtain ⟨part, after, rfl, member, rest⟩ := matchhere_iff.mp here
      exact ⟨before, part, after, (List.append_assoc before part after).symm, member, nofun, rest⟩
    · rintro ⟨before, part, after, rfl, member, -, rest⟩
      exact ⟨before, part ++ after, List.append_assoc before part after,
        matchhere_iff.mpr ⟨part, after, rfl, member, rest⟩⟩

end RandomRepo.Xv6.Grep
