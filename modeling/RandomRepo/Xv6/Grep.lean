import RandomRepo.Lib.Pieces
import RandomRepo.Xv6.GrepMatch

/-!
# The lines of `grep`

`grep` of `grep.c` reads into a buffer of 1024 bytes, writes the lines of the buffer that match,
and moves what follows the last newline to the front before the next read.  If there is no newline
in the buffer, it is emptied: the part of a line that has been read by then is lost.  The
output is right for all patterns just if every read brings a newline.
-/

namespace RandomRepo.Xv6.Grep

variable {c : UInt8} {pattern buf line rest : List UInt8}

def newline : UInt8 := 10

/-- `sizeof(buf)`. -/
def bufSize : Nat := 1024

/-- The string up to the first `c`, and the bytes after it, as `strchr` finds it: not behind a
NUL. -/
def strchr (c : UInt8) : List UInt8 → Option (List UInt8 × List UInt8)
  | [] => none
  | x :: s =>
    if x = 0 then none
    else if x = c then some ([], s)
    else (strchr c s).map fun found => (x :: found.1, found.2)

theorem strchr_some (found : strchr c buf = some (line, rest)) : buf = line ++ c :: rest := by
  induction buf generalizing line with
  | nil => cases found
  | cons x s ih =>
    rw [strchr] at found
    split_ifs at found with nul here
    · cases found
      rw [here]
      rfl
    · obtain ⟨⟨line', rest'⟩, later, same⟩ := Option.map_eq_some_iff.mp found
      cases same
      rw [ih later]
      rfl

/-- The inner loop of `grep` from `p` on: what it writes, and the bytes from the last `p` on. -/
def lineLoop (pattern p : List UInt8) : List (List UInt8) × List UInt8 :=
  match _found : strchr newline p with
  | none => ([], p)
  | some (line, rest) =>
    let next := lineLoop pattern rest
    (if match_ pattern line then (line ++ [newline]) :: next.1 else next.1, next.2)
termination_by p.length
decreasing_by
  rw [strchr_some _found, List.length_append, List.length_cons]
  omega

theorem lineLoop_none (none_ : strchr newline buf = none) : lineLoop pattern buf = ([], buf) := by
  rw [lineLoop.eq_def]
  split
  · rfl
  · rename_i found
    rw [none_] at found
    cases found

theorem lineLoop_some (some_ : strchr newline buf = some (line, rest)) : lineLoop pattern buf =
    (if match_ pattern line then (line ++ [newline]) :: (lineLoop pattern rest).1
      else (lineLoop pattern rest).1, (lineLoop pattern rest).2) := by
  rw [lineLoop.eq_def]
  split
  · rename_i found
    rw [some_] at found
    cases found
  · rename_i found
    rw [some_] at found
    cases found
    rfl

/-- What stays in the buffer for the next read.  Nothing stays if no newline was found. -/
def keep (buf p : List UInt8) : List UInt8 := if p.length = buf.length then [] else p

/-- The outer loop of `grep`, with the bytes that are in the buffer and the results of the reads
to come. -/
def grepLoop (pattern buf : List UInt8) : List (List UInt8) → List (List UInt8)
  | [] => []
  | n :: reads =>
    let next := lineLoop pattern (buf ++ n)
    next.1 ++ grepLoop pattern (keep (buf ++ n) next.2) reads

/-- The writes of `grep`. -/
def grep (pattern : List UInt8) (reads : List (List UInt8)) : List (List UInt8) :=
  grepLoop pattern [] reads

/-- The reads return something, and not more than is asked for.  What is in the buffer does not
depend on the pattern. -/
def Feasible (buf : List UInt8) : List (List UInt8) → Prop
  | [] => True
  | n :: reads => 0 < n.length ∧ n.length ≤ bufSize - buf.length - 1 ∧
    Feasible (keep (buf ++ n) (lineLoop [] (buf ++ n)).2) reads

/-! ## One buffer -/

section Buffer

variable {lines done : List (List UInt8)} {tail : List UInt8}

/-- Lines as they are in the input, without newlines and NULs. -/
def Clean (lines : List (List UInt8)) : Prop := ∀ line ∈ lines, newline ∉ line ∧ 0 ∉ line

theorem strchr_clean (none_ : newline ∉ tail) : strchr newline tail = none := by
  induction tail with
  | nil => rfl
  | cons x s ih =>
    rw [List.mem_cons, not_or] at none_
    rw [strchr, if_neg (Ne.symm none_.1), ih none_.2]
    exact ite_self none

theorem strchr_line (clean : newline ∉ line ∧ 0 ∉ line) :
    strchr newline (line ++ newline :: rest) = some (line, rest) := by
  induction line with
  | nil => rfl
  | cons x s ih =>
    rw [List.mem_cons, List.mem_cons, not_or, not_or] at clean
    obtain ⟨⟨other, others⟩, nul, nuls⟩ := clean
    rw [List.cons_append, strchr, if_neg (Ne.symm nul), if_neg (Ne.symm other), ih ⟨others, nuls⟩]
    rfl

/-- The lines that `grep` has to write. -/
def matching (pattern : List UInt8) (lines : List (List UInt8)) : List (List UInt8) :=
  (lines.filter (match_ pattern)).map (· ++ [newline])

theorem matching_append (more : List (List UInt8)) :
    matching pattern (lines ++ more) = matching pattern lines ++ matching pattern more := by
  unfold matching
  rw [List.filter_append, List.map_append]

theorem matching_cons : matching pattern (line :: lines) =
    if match_ pattern line then (line ++ [newline]) :: matching pattern lines
    else matching pattern lines := by
  unfold matching
  rw [List.filter_cons]
  split_ifs
  · rw [List.map_cons]
  · rfl

/-- The inner loop writes the lines of the buffer that match. -/
theorem lineLoop_lines (clean : Clean done) (none_ : newline ∉ tail) :
    lineLoop pattern (joined newline done ++ tail) = (matching pattern done, tail) := by
  induction done with
  | nil => exact lineLoop_none (strchr_clean none_)
  | cons line done ih =>
    rw [joined_cons, List.append_assoc, List.cons_append,
      lineLoop_some (strchr_line (clean line List.mem_cons_self)),
      ih (fun other member => clean other (List.mem_cons_of_mem line member)), matching_cons]

theorem lineLoop_length : (lineLoop pattern buf).1.flatten.length +
    (lineLoop pattern buf).2.length ≤ buf.length := by
  fun_induction lineLoop pattern buf with
  | case1 p _ => exact le_of_eq (Nat.zero_add p.length)
  | case2 p line rest found next ih =>
    rw [strchr_some found, List.length_append, List.length_cons]
    dsimp only [next]
    split_ifs
    · rw [List.flatten_cons, List.length_append, List.length_append, List.length_singleton]
      omega
    · omega

theorem keep_length (p : List UInt8) : (keep buf p).length ≤ p.length := by
  unfold keep
  split_ifs
  · exact Nat.zero_le _
  · exact le_rfl

end Buffer

/-! ## Whole inputs -/

section Input

variable {lines reads : List (List UInt8)} {n : List UInt8}

theorem grepLoop_length : (grepLoop pattern buf reads).flatten.length ≤
    buf.length + reads.flatten.length := by
  induction reads generalizing buf with
  | nil => exact Nat.zero_le _
  | cons n reads ih =>
    have written := @lineLoop_length pattern (buf ++ n)
    have kept := @keep_length (buf ++ n) (lineLoop pattern (buf ++ n)).2
    have later := @ih (keep (buf ++ n) (lineLoop pattern (buf ++ n)).2)
    rw [List.length_append] at written
    rw [grepLoop, List.flatten_append, List.length_append, List.flatten_cons, List.length_append]
    omega

/-- A read without a newline loses what is in the buffer. -/
theorem grepLoop_lost (none_ : newline ∉ buf ++ n) :
    grepLoop pattern buf (n :: reads) = grepLoop pattern [] reads := by
  rw [grepLoop, lineLoop_none (strchr_clean none_)]
  show [] ++ grepLoop pattern (keep (buf ++ n) (buf ++ n)) reads = _
  rw [keep, if_pos rfl, List.nil_append]

/-- A read with a newline: the lines that are complete are taken from the buffer. -/
theorem grepLoop_found (clean : Clean lines) (whole : buf ++ (n ++ reads.flatten) = joined newline lines)
    (some_ : newline ∈ n) : ∃ done rest tail, lines = done ++ rest ∧ newline ∉ tail ∧
      tail ++ reads.flatten = joined newline rest ∧ ∀ pattern,
        (matching pattern done).flatten.length + tail.length ≤ buf.length + n.length ∧
        grepLoop pattern buf (n :: reads) = matching pattern done ++ grepLoop pattern tail reads := by
  rw [← List.append_assoc] at whole
  obtain ⟨done, rest, tail, rfl, cut, later, none_⟩ :=
    joined_cut whole (fun line member => (clean line member).1)
  refine ⟨done, rest, tail, rfl, none_, later, fun pattern => ?_⟩
  have complete : Clean done := fun line member => clean line (List.mem_append_left rest member)
  have loop := @lineLoop_lines pattern done tail complete none_
  rw [← cut] at loop
  have shorter : tail.length ≠ (buf ++ n).length := by
    intro same
    have member : newline ∈ buf ++ n := List.mem_append_right buf some_
    rw [cut, List.length_append] at same
    have empty : joined newline done = [] := List.length_eq_zero_iff.mp (by omega)
    rw [cut, empty, List.nil_append] at member
    exact none_ member
  constructor
  · have written := @lineLoop_length pattern (buf ++ n)
    rwa [loop, List.length_append] at written
  · rw [grepLoop, loop, keep, if_neg shorter]

theorem grepLoop_right (clean : Clean lines) (whole : buf ++ reads.flatten = joined newline lines)
    (none_ : newline ∉ buf) (each : ∀ n ∈ reads, newline ∈ n) :
    grepLoop pattern buf reads = matching pattern lines := by
  induction reads generalizing buf lines with
  | nil =>
    rw [List.flatten_nil, List.append_nil] at whole
    cases lines with
    | nil => rfl
    | cons line lines =>
      rw [whole, joined_cons] at none_
      exact absurd (List.mem_append_right line List.mem_cons_self) none_
  | cons n reads ih =>
    rw [List.flatten_cons] at whole
    obtain ⟨done, rest, tail, rfl, last, later, run⟩ :=
      grepLoop_found clean whole (each n List.mem_cons_self)
    rw [(run pattern).2, matching_append,
      ih (fun line member => clean line (List.mem_append_right done member)) later last
        fun n' member => each n' (List.mem_cons_of_mem n member)]

/-- With a read that has no newline, less than the input is written. -/
theorem grepLoop_short (clean : Clean lines) (whole : buf ++ reads.flatten = joined newline lines)
    (none_ : newline ∉ buf) (each : ∀ n ∈ reads, 0 < n.length) (lost : ∃ n ∈ reads, newline ∉ n) :
    (grepLoop pattern buf reads).flatten.length < buf.length + reads.flatten.length := by
  induction reads generalizing buf lines with
  | nil =>
    obtain ⟨n, member, -⟩ := lost
    cases member
  | cons n reads ih =>
    have some_ := each n List.mem_cons_self
    rw [List.flatten_cons, List.length_append]
    by_cases here : newline ∈ n
    · rw [List.flatten_cons] at whole
      obtain ⟨done, rest, tail, rfl, last, later, run⟩ := grepLoop_found clean whole here
      obtain ⟨written, run⟩ := run pattern
      have lost' : ∃ n ∈ reads, newline ∉ n := by
        obtain ⟨n', member, without⟩ := lost
        rcases List.mem_cons.mp member with rfl | member
        · exact absurd here without
        · exact ⟨n', member, without⟩
      have shorter := ih (fun line member => clean line (List.mem_append_right done member)) later
        last (fun n' member => each n' (List.mem_cons_of_mem n member)) lost'
      rw [run, List.flatten_append, List.length_append]
      omega
    · rw [grepLoop_lost (by rw [List.mem_append, not_or]; exact ⟨none_, here⟩)]
      have later := @grepLoop_length pattern [] reads
      rw [List.length_nil] at later
      omega

theorem Feasible.pos (feasible : Feasible buf reads) : ∀ n ∈ reads, 0 < n.length := by
  induction reads generalizing buf with
  | nil => exact fun n member => absurd member List.not_mem_nil
  | cons n reads ih => exact List.forall_mem_cons.mpr ⟨feasible.1, ih feasible.2.2⟩

/-- The empty pattern is in every line. -/
theorem matching_nil : (matching [] lines).flatten = joined newline lines := by
  have all : lines.filter (match_ []) = lines := List.filter_eq_self.mpr fun line _ =>
    matchLoop_iff.mpr ⟨[], line, rfl, by rw [matchhere]⟩
  unfold matching
  rw [all, joined, List.flatMap_def]

/-- Whatever the pattern, `grep` writes the lines that match, just if every read brings a
newline. -/
theorem grep_iff_newlines (clean : Clean lines) (whole : reads.flatten = joined newline lines)
    (feasible : Feasible [] reads) :
    (∀ pattern, grep pattern reads = matching pattern lines) ↔ ∀ n ∈ reads, newline ∈ n := by
  constructor
  · intro right
    by_contra lost
    push Not at lost
    have short := @grepLoop_short [] [] lines reads clean whole List.not_mem_nil feasible.pos lost
    have written : (grepLoop [] [] reads).flatten = reads.flatten := by
      rw [whole, ← matching_nil]
      exact congrArg List.flatten (right [])
    rw [written, List.length_nil, Nat.zero_add] at short
    exact absurd short (lt_irrefl _)
  · intro each pattern
    exact grepLoop_right clean whole List.not_mem_nil each

/-- The lines `a` and `bc` in two reads, each of which brings a newline. -/
theorem grep_iff_newlines_two : Feasible [] [[97, newline, 98], [99, newline]] ∧
    ∀ pattern, grep pattern [[97, newline, 98], [99, newline]] =
      matching pattern [[97], [98, 99]] := by
  have feasible : Feasible [] [[97, newline, 98], [99, newline]] := by
    refine ⟨by decide, by decide, ?_⟩
    rw [List.nil_append,
      lineLoop_some (show strchr newline [97, newline, 98] = some ([97], [98]) by decide),
      lineLoop_none (show strchr newline [98] = none from rfl)]
    exact ⟨by decide, by decide, trivial⟩
  have whole : [[97, newline, 98], [99, newline]].flatten = joined newline [[97], [98, 99]] := rfl
  exact ⟨feasible, (grep_iff_newlines (by unfold Clean; decide) whole feasible).mpr (by decide)⟩

/-- The line `ab` is not found by the pattern `a`, if it is read in two parts. -/
theorem grep_two_reads : Clean [[97, 98]] ∧
    [[97], [98, newline]].flatten = joined newline [[97, 98]] ∧
    Feasible [] [[97], [98, newline]] ∧ match_ [97] [97, 98] = true ∧
    grep [97] [[97], [98, newline]] = [] ∧ matching [97] [[97, 98]] = [[97, 98, newline]] := by
  have first : lineLoop [] [97] = ([], [97]) := lineLoop_none (by decide)
  have found : match_ [97] [97, 98] = true :=
    matchLoop_iff.mpr ⟨[], [97, 98], rfl, by simp [matchhere, star, dollar]⟩
  refine ⟨by unfold Clean; decide, rfl, ⟨by decide, by decide, ?_⟩, found, ?_, ?_⟩
  · show Feasible (keep [97] (lineLoop [] [97]).2) [[98, newline]]
    rw [first]
    exact ⟨by decide, by decide, trivial⟩
  · unfold grep
    rw [grepLoop_lost (by decide), grepLoop, List.nil_append,
      lineLoop_some (show strchr newline [98, newline] = some ([98], []) by decide),
      lineLoop_none (show strchr newline [] = none from rfl)]
    simp [match_, matchLoop, matchhere, caret, star, dollar, dot, grepLoop]
  · rw [matching_cons, if_pos found]
    rfl

end Input

end RandomRepo.Xv6.Grep
