import Mathlib.Data.List.TakeWhile
import RandomRepo.Lib.Fuel
import RandomRepo.Lib.Pieces
import RandomRepo.Xv6.Fs

/-!
# The elements of a path

`skipelem` copies the next element of a path to a buffer of `DIRSIZ` bytes and returns what follows.
A pointer into the path is the list of the bytes from there on; the path ends with its
first NUL, or with the list.  Calling it until it returns 0 gives the components of
the path, which are the non-empty pieces between slashes.

`Xv6.skipelem` keeps of the buffer only the name that is in it.  With that, the loop of `namex` is a
walk along the components.
-/

namespace RandomRepo.Xv6

/-- A `char name[DIRSIZ]`. -/
abbrev NameBuf : Type := { bytes : List UInt8 // bytes.length = dirsiz }

namespace Path

/-- A character of an element. -/
def inElem (c : UInt8) : Bool := c ≠ slash ∧ c ≠ 0

/-- The first bytes of the buffer are written. -/
def write (name : NameBuf) (bytes : List UInt8) : NameBuf :=
  ⟨(bytes ++ name.val.drop bytes.length).take dirsiz, by
    have size := name.property
    rw [List.length_take, List.length_append, List.length_drop]
    omega⟩

/-- The rest of the path and the buffer; `none` if there is no element. -/
def skipelem (path : List UInt8) (name : NameBuf) : Option (List UInt8 × NameBuf) :=
  let s := path.dropWhile (· = slash)
  if s.headD 0 = 0 then none
  else
    let path := s.dropWhile inElem
    let len := s.length - path.length
    let name := if dirsiz ≤ len then write name (s.take dirsiz) else write name (s.take len ++ [0])
    some (path.dropWhile (· = slash), name)

/-- `skipelem` is called until it returns 0.  What it returns is listed. -/
def elements : Nat → List UInt8 → NameBuf → Option (List (List UInt8 × NameBuf))
  | 0, _, _ => none
  | fuel + 1, path, name =>
    match skipelem path name with
    | none => some []
    | some (rest, name) => (elements fuel rest name).map ((rest, name) :: ·)

/-! ## Components -/

/-- The bytes before the NUL. -/
def text (path : List UInt8) : List UInt8 := path.takeWhile (· ≠ 0)

/-- The non-empty pieces between slashes. -/
def components (path : List UInt8) : List (List UInt8) := runs (· = slash) (text path)

/-- The buffer holds the name, cut to its size, with a NUL if there is room. -/
structure Spells (name : List UInt8) (buf : NameBuf) : Prop where
  starts : name.take dirsiz <+: buf.val
  ends : name.length < dirsiz → buf.val[name.length]? = some 0

variable {path rest elem : List UInt8} {name : NameBuf} {fuel : Nat}

theorem slash_ne_zero : slash ≠ 0 := by decide

theorem components_slash : components (slash :: path) = components path := by
  unfold components text
  rw [List.takeWhile_cons_of_pos (by simpa using slash_ne_zero)]
  exact runs_cut (fun x member => absurd member List.not_mem_nil) (decide_eq_true rfl)

theorem components_dropWhile (path : List UInt8) :
    components (path.dropWhile (· = slash)) = components path := by
  induction path with
  | nil => rfl
  | cons c path ih =>
    by_cases here : c = slash
    · rw [List.dropWhile_cons_of_pos (by simpa using here), ih, here, components_slash]
    · rw [List.dropWhile_cons_of_neg (by simpa using here)]

theorem text_end (ends : path.headD 0 = 0) : text path = [] := by
  cases path with
  | nil => rfl
  | cons c path => exact List.takeWhile_cons_of_neg (by simpa using ends)

theorem components_end (ends : path.headD 0 = 0) : components path = [] := by
  unfold components
  rw [text_end ends]
  rfl

theorem inElem_iff {c : UInt8} : inElem c = true ↔ c ≠ slash ∧ c ≠ 0 := decide_eq_true_iff

/-- An element, and the end of the path or a slash behind it. -/
theorem components_elem (some_ : elem ≠ []) (chars : ∀ c ∈ elem, inElem c = true)
    (stops : inElem (rest.headD 0) = false) :
    components (elem ++ rest) = elem :: components rest := by
  have solid : ∀ c ∈ elem, decide (c = slash) = false := fun c member =>
    decide_eq_false (inElem_iff.mp (chars c member)).1
  have whole : text (elem ++ rest) = elem ++ text rest :=
    List.takeWhile_append_of_pos fun c member => decide_eq_true (inElem_iff.mp (chars c member)).2
  by_cases ends : rest.headD 0 = 0
  · rw [components_end ends]
    unfold components
    rw [whole, text_end ends, List.append_nil, runs_solid solid some_]
  · have here : rest.headD 0 = slash := by
      by_contra other
      rw [inElem_iff.mpr ⟨other, ends⟩] at stops
      cases stops
    obtain ⟨rest, rfl⟩ : ∃ more, rest = slash :: more := by
      cases rest with
      | nil => exact absurd rfl ends
      | cons c rest => exact ⟨rest, congrArg (· :: rest) here⟩
    have more : text (slash :: rest) = slash :: text rest :=
      List.takeWhile_cons_of_pos (by simpa using slash_ne_zero)
    rw [components_slash]
    unfold components
    rw [whole, more, runs_cut solid (decide_eq_true rfl), if_neg some_]
    rfl

theorem headD_dropWhile (p : UInt8 → Bool) (nul : p 0 = false) (path : List UInt8) :
    p ((path.dropWhile p).headD 0) = false := by
  induction path with
  | nil => exact nul
  | cons c path ih =>
    cases here : p c with
    | true => rwa [List.dropWhile_cons_of_pos here]
    | false => rwa [List.dropWhile_cons_of_neg (by simp [here])]

theorem takeWhile_ne_nil (start : inElem (path.headD 0) = true) : path.takeWhile inElem ≠ [] := by
  cases path with
  | nil => cases start
  | cons c path =>
    have here : inElem c = true := start
    rw [List.takeWhile_cons_of_pos here]
    exact List.cons_ne_nil _ _

/-- The first component of a path that starts with one. -/
theorem components_start (start : inElem (path.headD 0) = true) :
    components path = path.takeWhile inElem :: components (path.dropWhile inElem) := by
  have split := components_elem (takeWhile_ne_nil start) (fun c => List.mem_takeWhile_imp)
    (headD_dropWhile inElem rfl path)
  rwa [List.takeWhile_append_dropWhile] at split

theorem write_eq {bytes : List UInt8} (fits : bytes.length ≤ dirsiz) :
    (write name bytes).val = bytes ++ name.val.drop bytes.length := by
  have size := name.property
  refine List.take_of_length_le ?_
  rw [List.length_append, List.length_drop]
  omega

/-- The buffer after an element has been copied to it. -/
theorem spells_write (name : NameBuf) (elem rest : List UInt8) :
    Spells elem (if dirsiz ≤ elem.length then write name ((elem ++ rest).take dirsiz)
      else write name ((elem ++ rest).take elem.length ++ [0])) := by
  split_ifs with long
  · refine ⟨?_, fun short => absurd long (Nat.not_le_of_lt short)⟩
    rw [List.take_append_of_le_length long, write_eq (List.length_take_le ..)]
    exact List.prefix_append ..
  · have fits : (elem ++ [(0 : UInt8)]).length ≤ dirsiz := by
      rw [List.length_append, List.length_singleton]
      omega
    rw [List.take_left]
    refine ⟨?_, fun _ => ?_⟩
    · rw [write_eq fits, List.take_of_length_le (by omega), List.append_assoc]
      exact List.prefix_append ..
    · rw [write_eq fits, List.append_assoc, List.getElem?_append_right (Nat.le_refl _), Nat.sub_self]
      rfl

theorem length_elem (s : List UInt8) :
    s.length - (s.dropWhile inElem).length = (s.takeWhile inElem).length := by
  have whole := congrArg List.length (List.takeWhile_append_dropWhile (p := inElem) (l := s))
  rw [List.length_append] at whole
  omega

/-- One call of `skipelem`. -/
theorem skipelem_spec (path : List UInt8) (name : NameBuf) :
    (skipelem path name = none ∧ components path = []) ∨
      ∃ elem rest buf, skipelem path name = some (rest, buf) ∧
        components path = elem :: components rest ∧ (∀ c ∈ elem, inElem c = true) ∧
        Spells elem buf ∧ rest.length < path.length ∧ rest.headD 0 ≠ slash ∧
        (rest.headD 0 = 0 ↔ components rest = []) := by
  have noSlash : ∀ path : List UInt8, (path.dropWhile (· = slash)).headD 0 ≠ slash := fun path =>
    of_decide_eq_false (headD_dropWhile (· = slash) rfl path)
  by_cases ends : (path.dropWhile (· = slash)).headD 0 = 0
  · exact .inl ⟨if_pos ends, by rw [← components_dropWhile, components_end ends]⟩
  · have start := inElem_iff.mpr ⟨noSlash path, ends⟩
    have size := List.length_dropWhile_le (· = slash) path
    have step : skipelem path name = _ := if_neg ends
    rw [← components_dropWhile path]
    generalize path.dropWhile (· = slash) = s at *
    have len := length_elem s
    obtain ⟨elem, after, whole, first, after_⟩ : ∃ elem after, s = elem ++ after ∧
        elem = s.takeWhile inElem ∧ after = s.dropWhile inElem :=
      ⟨_, _, List.takeWhile_append_dropWhile.symm, rfl, rfl⟩
    have some_ : 0 < elem.length := first ▸ List.length_pos_iff.mpr (takeWhile_ne_nil start)
    rw [← first, ← after_] at len
    rw [← after_, len, whole] at step
    refine .inr ⟨elem, _, _, step, ?_, fun c member => ?_, spells_write name elem after, ?_,
      noSlash after, ?_⟩
    · rw [components_start start, ← first, ← after_, components_dropWhile]
    · rw [first] at member
      exact List.mem_takeWhile_imp member
    · have more := List.length_dropWhile_le (· = slash) after
      rw [whole, List.length_append] at size
      omega
    · refine ⟨components_end, fun none_ => ?_⟩
      by_contra more
      rw [components_start (inElem_iff.mpr ⟨noSlash after, more⟩)] at none_
      cases none_

/-- Calling `skipelem` until it returns 0 ends, and copies the components one after the other.  What
it returns does not start with a slash, and is empty just after the last one. -/
theorem elements_components (path : List UInt8) (name : NameBuf) :
    ∃ steps, Settles (fun fuel => elements fuel path name) steps ∧
      List.Forall₂ (fun elem step => Spells elem step.2) (components path) steps ∧
      ∀ before rest buf after, steps = before ++ (rest, buf) :: after →
        rest.headD 0 ≠ slash ∧ (rest.headD 0 = 0 ↔ after = []) := by
  induction size : path.length using Nat.strongRecOn generalizing path name with
  | ind _ ih =>
    rcases skipelem_spec path name with ⟨none_, empty⟩ |
      ⟨elem, rest, buf, some_, first, -, spells, shorter, noSlash, last⟩
    · refine ⟨[], ?_, by rw [empty]; exact .nil, fun before rest buf after nil => ?_⟩
      · refine (Settles.pure []).turn fun fuel => ?_
        rw [elements, none_]
      · cases before with
        | nil => cases nil
        | cons _ _ => cases nil
    · obtain ⟨steps, settles, spelled, rests⟩ := ih _ (size ▸ shorter) rest buf rfl
      refine ⟨(rest, buf) :: steps, ?_, by rw [first]; exact .cons spells spelled, ?_⟩
      · refine (settles.map ((rest, buf) :: ·)).turn fun fuel => ?_
        rw [elements, some_]
      · intro before rest' buf' after split
        cases before with
        | nil =>
          cases split
          refine ⟨noSlash, last.trans ⟨fun none_ => ?_, fun none_ => ?_⟩⟩
          · rw [none_] at spelled
            cases spelled
            rfl
          · rw [none_] at spelled
            generalize components rest = cs at spelled
            cases spelled
            rfl
        | cons step before =>
          obtain ⟨-, split⟩ := List.cons.inj split
          exact rests before rest' buf' after split

/-! ## The walk of `namex` -/

theorem Spells.nameKey {buf : NameBuf} (spells : Spells elem buf)
    (chars : ∀ c ∈ elem, inElem c = true) : Xv6.nameKey buf.val = elem.take dirsiz := by
  have size := buf.property
  have clean : ∀ c ∈ elem, decide (c ≠ 0) = true := fun c member =>
    decide_eq_true (inElem_iff.mp (chars c member)).2
  obtain ⟨more, whole⟩ := spells.starts
  unfold Xv6.nameKey stringKey
  rw [List.take_of_length_le (by omega)]
  by_cases long : dirsiz ≤ elem.length
  · have none_ : more = [] := by
      rw [← whole, List.length_append, List.length_take_of_le long] at size
      exact List.eq_nil_of_length_eq_zero (by omega)
    rw [← whole, none_, List.append_nil]
    exact List.takeWhile_eq_self_iff.mpr fun c member => clean c (List.mem_of_mem_take member)
  · have nul := spells.ends (by omega)
    rw [List.take_of_length_le (by omega)] at whole ⊢
    rw [← whole, List.getElem?_append_right (Nat.le_refl _), Nat.sub_self] at nul
    rw [← whole, List.takeWhile_append_of_pos clean]
    cases more with
    | nil => cases nul
    | cons c more =>
      cases nul
      rw [List.takeWhile_cons_of_neg (by decide), List.append_nil]

/-- Of the buffer only the name in it is used. -/
theorem skipelem_eq (path : List UInt8) (name : NameBuf) :
    Xv6.skipelem path = (skipelem path name).map fun r => (Xv6.nameKey r.2.val, r.1) := by
  unfold Xv6.skipelem skipelem
  generalize path.dropWhile (· = slash) = s
  dsimp only
  by_cases ends : s.headD 0 = 0
  · rw [if_pos ends, if_pos ends]
    rfl
  · have spells := spells_write name (s.takeWhile inElem) (s.dropWhile inElem)
    rw [List.takeWhile_append_dropWhile] at spells
    rw [if_neg ends, if_neg ends, Option.map_some, length_elem,
      spells.nameKey fun c => List.mem_takeWhile_imp]
    rfl

/-- The loop of `namex` over the elements themselves. -/
def walk (parent : Bool) : List (List UInt8) → Nat → FsM (Option (Nat × List UInt8))
  | [], ip =>
    if parent then do
      iput ip
      return none
    else return some (ip, [])
  | name :: rest, ip => do
    ilock ip
    let d ← inodeAt ip
    if d.copy.type ≠ .dir then do
      iunlockput ip
      return none
    else if parent ∧ rest = [] then do
      iunlock ip
      return some (ip, name)
    else do
      let next ← dirget ip name
      match next with
      | none => do
        iunlockput ip
        return none
      | some (_, next) => do
        iunlockput ip
        walk parent rest next

/-- `namex` goes along the components of the path, and stops at the last one for `nameiparent`. -/
theorem namexLoop_eq_walk (parent : Bool) (ip : Nat) (enough : path.length < fuel) :
    namexLoop parent fuel path ip = walk parent ((components path).map (·.take dirsiz)) ip := by
  induction fuel generalizing path ip with
  | zero => exact absurd enough (Nat.not_lt_zero _)
  | succ fuel ih =>
    have same := skipelem_eq path ⟨List.replicate dirsiz 0, List.length_replicate⟩
    rcases skipelem_spec path ⟨List.replicate dirsiz 0, List.length_replicate⟩ with
      ⟨none_, empty⟩ | ⟨elem, rest, buf, some_, first, chars, spells, shorter, -, last⟩
    · rw [none_] at same
      rw [namexLoop, same, empty]
      rfl
    · rw [some_, Option.map_some, spells.nameKey chars] at same
      have done : rest.headD 0 = 0 ↔ (components rest).map (·.take dirsiz) = [] :=
        last.trans List.map_eq_nil_iff.symm
      have later : ∀ next, namexLoop parent fuel rest next =
          walk parent ((components rest).map (·.take dirsiz)) next := fun next => ih next (by omega)
      rw [namexLoop, same, first, List.map_cons, walk]
      refine congrArg (ilock ip >>= ·) (funext fun _ => congrArg (inodeAt ip >>= ·) ?_)
      funext d
      refine if_congr Iff.rfl rfl (if_congr (and_congr_right' done) rfl ?_)
      refine congrArg (dirget ip (elem.take dirsiz) >>= ·) (funext fun next => ?_)
      cases next with
      | none => rfl
      | some found =>
        exact congrArg (iunlockput ip >>= ·) (funext fun _ => later found.2)

/-- The path `/a//b`. -/
theorem namexLoop_eq_walk_slashes :
    namexLoop true 6 [47, 97, 47, 47, 98] 1 = walk true [[97], [98]] 1 :=
  (namexLoop_eq_walk true 1 (by decide)).trans (congrArg (walk true · 1) (by decide))

end Path

end RandomRepo.Xv6
