import Mathlib.Data.Fintype.Card
import RandomRepo.Lib.Lock
import RandomRepo.Lib.RangeSum
import RandomRepo.Xv6.BufCache

/-!
# Integrity of the buffer cache

The list is a ring of all buffers (`Listed`), so `bget` finds a block that is cached.
The reference count of a buffer is the number of its users (`Refs`), so a buffer that is
recycled has none.  Then a block has one buffer at most, and its data are those of the
buffer or, if that is clean or there is none, those on the disk (`Coherent`).
-/

namespace RandomRepo.Xv6

namespace BufPlace

/-- The block that was asked for and the buffer that was found. -/
def target : BufPlace → Option (BlockId × Bslot)
  | idle | want _ => none
  | wait k b | check k b | read k b | hold k b | write k b | drop k b => some (k, b)

/-- The buffer to which the user has a reference. -/
def slot (x : BufPlace) : Option Bslot := x.target.map Prod.snd

/-- The user holds the lock of the buffer. -/
def Holds (b : Bslot) : BufPlace → Prop
  | check _ c | read _ c | hold _ c | write _ c => c = b
  | _ => False

/-- What the user knows of `B_VALID` of its buffer. -/
def Knows (valid : Bslot → Bool) : BufPlace → Prop
  | read _ b => valid b = false
  | hold _ b | write _ b => valid b = true
  | _ => True

theorem Holds.slot_eq {x : BufPlace} {b : Bslot} (holds : x.Holds b) : x.slot = some b := by
  cases x with
  | check k c => exact congrArg some holds
  | read k c => exact congrArg some holds
  | hold k c => exact congrArg some holds
  | write k c => exact congrArg some holds
  | _ => exact holds.elim

theorem Knows.congr {x : BufPlace} {v v' : Bslot → Bool} (knows : x.Knows v)
    (same : ∀ b, x.Holds b → v' b = v b) : x.Knows v' := by
  cases x with
  | read k b | hold k b | write k b =>
    exact (same b rfl).trans knows
  | _ => trivial

end BufPlace

namespace BufSys

variable {n : Nat} {s t : BufSys n} {i : Fin n} {k : BlockId} {b : Bslot} {q : Buf n}
  {x : BufPlace}

/-! ## The list -/

/-- The links form a ring of all buffers through the head. -/
def Listed (links : Links (Option Bslot)) : Prop :=
  ∃ order : List Bslot, Ring links none (order.map some) ∧ ∀ b, b ∈ order

theorem find?_map_some (order : List Bslot) (p : Bslot → Bool) :
    ((order.map some).find? fun x => x.any p).join = order.find? p := by
  induction order with
  | nil => rfl
  | cons b order ih =>
    rw [List.map_cons, List.find?_cons, List.find?_cons, Option.any_some]
    cases p b with
    | true => rfl
    | false => exact ih

theorem ring_length {links : Links (Option Bslot)} {order : List Bslot}
    (ring : Ring links none (order.map some)) : (order.map some).length < nbuf + 1 := by
  have nodup : order.Nodup := List.Nodup.of_map _ (List.nodup_cons.mp ring.nodup).2
  have small := nodup.length_le_card
  rw [Fintype.card_fin] at small
  rw [List.length_map]
  omega

theorem cached_eq {order : List Bslot} (ring : Ring s.links none (order.map some)) :
    s.cached k = order.find? fun b => (s.buf b).id = k := by
  rw [cached, search, ring.search_next (ring_length ring), find?_map_some]

theorem unused_eq {order : List Bslot} (ring : Ring s.links none (order.map some)) :
    s.unused =
      order.reverse.find? fun b => (s.buf b).refcnt = 0 ∧ (s.buf b).dirty = false := by
  rw [unused, search, ring.search_prev (ring_length ring), ← List.map_reverse, find?_map_some]

theorem Listed.touch {links : Links (Option Bslot)} (listed : Listed links) (b : Bslot) :
    Listed ((links.unlink (some b)).pushFront none (some b)) := by
  obtain ⟨order, ring, all⟩ := listed
  obtain ⟨as, bs, rfl⟩ := List.append_of_mem (all b)
  rw [List.map_append, List.map_cons] at ring
  refine ⟨b :: (as ++ bs), ?_, fun c => List.perm_middle.mem_iff.mp (all c)⟩
  rw [List.map_cons, List.map_append]
  exact ring.touch

theorem listed_binit : Listed binitLinks := by
  refine ⟨(List.finRange nbuf).reverse, ?_, fun b => ?_⟩
  · have new : ((List.finRange nbuf).map some ++ [none]).Nodup := by
      rw [List.nodup_append]
      refine ⟨(List.nodup_finRange nbuf).map (Option.some_injective _), List.nodup_singleton _, ?_⟩
      rintro x member _ last rfl
      obtain ⟨b, -, eq⟩ := List.mem_map.mp member
      rw [List.mem_singleton.mp last] at eq
      cases eq
    have ring := (Ring.single (none : Option Bslot)).pushAll new
    rwa [List.append_nil, ← List.map_reverse] at ring
  · rw [List.mem_reverse]
    exact List.mem_finRange b

/-! ## What a step does -/

inductive Acts (s : BufSys n) : BufSys n → Prop
  | call (i : Fin n) (k : BlockId) (place : s.place i = .idle) : Acts s (s.at_ i (.want k))
  | found (i : Fin n) (k : BlockId) (b : Bslot) (place : s.place i = .want k)
      (id : (s.buf b).id = k) :
      Acts s ((s.setBuf b { s.buf b with refcnt := (s.buf b).refcnt + 1 }).at_ i (.wait k b))
  | recycled (i : Fin n) (k : BlockId) (b : Bslot) (place : s.place i = .want k)
      (absent : ∀ c, (s.buf c).id ≠ k) (free : (s.buf b).refcnt = 0)
      (clean : (s.buf b).dirty = false) :
      Acts s ((s.setBuf b { s.buf b with
        id := k, valid := false, dirty := false, refcnt := 1 }).at_ i (.wait k b))
  | locked (i : Fin n) (k : BlockId) (b : Bslot) (place : s.place i = .wait k b)
      (free : (s.buf b).lock = none) :
      Acts s ((s.setBuf b { s.buf b with lock := some i }).at_ i (.check k b))
  | ready (i : Fin n) (k : BlockId) (b : Bslot) (place : s.place i = .check k b)
      (valid : (s.buf b).valid = true) : Acts s (s.at_ i (.hold k b))
  | reading (i : Fin n) (k : BlockId) (b : Bslot) (place : s.place i = .check k b)
      (invalid : (s.buf b).valid = false) : Acts s (s.at_ i (.read k b))
  | stored (i : Fin n) (k : BlockId) (b : Bslot)
      (place : s.place i = .read k b ∨ s.place i = .write k b) (dirty : (s.buf b).dirty = true) :
      Acts s (({ s with disk := Function.update s.disk (s.buf b).id (s.buf b).data }.setBuf b
        { s.buf b with valid := true, dirty := false }).at_ i (.hold k b))
  | loaded (i : Fin n) (k : BlockId) (b : Bslot)
      (place : s.place i = .read k b ∨ s.place i = .write k b) (clean : (s.buf b).dirty = false) :
      Acts s ((s.setBuf b { s.buf b with data := s.disk (s.buf b).id, valid := true }).at_ i
        (.hold k b))
  | unref (i : Fin n) (k : BlockId) (b : Bslot) (place : s.place i = .drop k b) :
      Acts s (s.unref i b)
  | logWrite (i : Fin n) (k : BlockId) (b : Bslot) (place : s.place i = .hold k b)
      (data : Block) : Acts s (s.mark b data)
  | bwrite (i : Fin n) (k : BlockId) (b : Bslot) (place : s.place i = .hold k b) (data : Block) :
      Acts s ((s.mark b data).at_ i (.write k b))
  | brelse (i : Fin n) (k : BlockId) (b : Bslot) (place : s.place i = .hold k b) :
      Acts s ((s.setBuf b { s.buf b with lock := none }).at_ i (.drop k b))

theorem bget_acts (listed : Listed s.links) (place : s.place i = .want k)
    (h : s.bget i k = some t) : Acts s t := by
  obtain ⟨order, ring, all⟩ := listed
  unfold bget at h
  rw [cached_eq ring, unused_eq ring] at h
  split at h
  case h_1 b found =>
    cases h
    exact .found i k b place (by simpa using List.find?_some found)
  case h_2 missing =>
    have absent : ∀ c, (s.buf c).id ≠ k := fun c => by
      simpa using List.find?_eq_none.mp missing c (all c)
    split at h
    case h_1 b found =>
      cases h
      obtain ⟨free, clean⟩ : (s.buf b).refcnt = 0 ∧ (s.buf b).dirty = false := by
        simpa using List.find?_some found
      exact .recycled i k b place absent free clean
    case h_2 => cases h

theorem iderw_acts (place : s.place i = .read k b ∨ s.place i = .write k b) :
    Acts s (s.iderw i b (.hold k b)) := by
  unfold iderw
  dsimp only
  split_ifs with dirty
  · exact .stored i k b place dirty
  · exact .loaded i k b place (by simpa using dirty)

theorem run_acts (listed : Listed s.links) (h : s.run i = some t) : Acts s t := by
  unfold run at h
  split at h
  case h_1 => cases h
  case h_2 => cases h
  case h_3 k place => exact bget_acts listed place h
  case h_4 k b place =>
    unfold acquiresleep at h
    split_ifs at h with free
    cases h
    exact .locked i k b place free
  case h_5 k b place =>
    cases h
    split_ifs with valid
    · exact .ready i k b place valid
    · exact .reading i k b place (by simpa using valid)
  case h_6 k b place =>
    cases h
    exact iderw_acts (.inl place)
  case h_7 k b place =>
    cases h
    exact iderw_acts (.inr place)
  case h_8 k b place =>
    cases h
    exact .unref i k b place

theorem Step.acts {a : BufAct n} (listed : Listed s.links) (step : Step s a t) : Acts s t := by
  unfold Step act at step
  cases a with
  | bread i k =>
    dsimp only at step
    split_ifs at step with place
    cases step
    exact .call i k place
  | logWrite i data =>
    dsimp only at step
    split at step
    case h_1 k b place =>
      cases step
      exact .logWrite i k b place data
    case h_2 => cases step
  | bwrite i data =>
    dsimp only at step
    split at step
    case h_1 k b place =>
      cases step
      exact .bwrite i k b place data
    case h_2 => cases step
  | brelse i =>
    dsimp only at step
    split at step
    case h_1 k b place =>
      cases step
      exact .brelse i k b place
    case h_2 => cases step
  | run i => exact run_acts listed step

theorem Listed.acts (listed : Listed s.links) (acts : Acts s t) : Listed t.links := by
  cases acts with
  | unref i k b place =>
    unfold BufSys.unref
    dsimp only
    split_ifs
    · exact listed.touch b
    · exact listed
  | _ => exact listed

theorem unref_buf (s : BufSys n) (i : Fin n) (b : Bslot) : (s.unref i b).buf =
    Function.update s.buf b { s.buf b with refcnt := (s.buf b).refcnt - 1 } := by
  unfold unref
  split_ifs <;> rfl

theorem unref_place (s : BufSys n) (i : Fin n) (b : Bslot) :
    (s.unref i b).place = Function.update s.place i .idle := by
  unfold unref
  split_ifs <;> rfl

theorem unref_disk (s : BufSys n) (i : Fin n) (b : Bslot) : (s.unref i b).disk = s.disk := by
  unfold unref
  split_ifs <;> rfl

theorem unref_last (s : BufSys n) (i : Fin n) (b : Bslot) : (s.unref i b).last = s.last := by
  unfold unref
  split_ifs <;> rfl

/-! ## References -/

/-- The number of users of a buffer. -/
def users (place : Fin n → BufPlace) (b : Bslot) : Nat :=
  ∑ i, if (place i).slot = some b then 1 else 0

structure Refs (s : BufSys n) : Prop where
  count : ∀ b, (s.buf b).refcnt = users s.place b
  lock : ∀ b, HeldBy (BufPlace.Holds b) s.place (s.buf b).lock
  id : ∀ i k b, (s.place i).target = some (k, b) → (s.buf b).id = k

theorem users_update (place : Fin n → BufPlace) (i : Fin n) (x : BufPlace) (b : Bslot) :
    (if (place i).slot = some b then 1 else 0) + users (Function.update place i x) b =
      (if x.slot = some b then 1 else 0) + users place b := by
  have exchange := sum_exchange (s := Finset.univ) (i := i)
    (f := fun j => if (place j).slot = some b then 1 else 0)
    (g := fun j => if (Function.update place i x j).slot = some b then 1 else 0)
    (Finset.mem_univ i) fun j other => by rw [Function.update_of_ne other]
  rwa [Function.update_self] at exchange

/-- A buffer without references has no users. -/
theorem Refs.no_user (refs : s.Refs) (free : (s.buf b).refcnt = 0) (j : Fin n) :
    (s.place j).slot ≠ some b := by
  intro uses
  rw [refs.count b, users, Finset.sum_eq_zero_iff] at free
  have none_ := free j (Finset.mem_univ j)
  rw [if_pos uses] at none_
  cases none_

/-- A buffer and a user of it change. -/
theorem Refs.move (refs : s.Refs) (buf : t.buf = Function.update s.buf b q)
    (place : t.place = Function.update s.place i x)
    (was : ∀ c, (s.place i).slot = some c → c = b) (target : ∀ k c, x.target = some (k, c) →
      c = b ∧ q.id = k)
    (count : (if (s.place i).slot = some b then 1 else 0) + q.refcnt =
      (if x.slot = some b then 1 else 0) + (s.buf b).refcnt)
    (lock : LockMove i ((s.place i).Holds b) (x.Holds b) (s.buf b).lock q.lock)
    (id : q.id = (s.buf b).id ∨ (s.buf b).refcnt = 0) : t.Refs := by
  have is : ∀ c, x.slot = some c → c = b := by
    intro c eq
    obtain ⟨⟨k, c'⟩, found, rfl⟩ := Option.map_eq_some_iff.mp eq
    exact (target k c' found).1
  refine ⟨fun c => ?_, fun c => ?_, fun j k c found => ?_⟩
  · have moved := users_update s.place i x c
    rw [buf, place]
    by_cases here : c = b
    · subst here
      rw [Function.update_self]
      rw [refs.count c] at count
      omega
    · rw [Function.update_of_ne here, refs.count c]
      rw [if_neg fun h => here (was c h), if_neg fun h => here (is c h)] at moved
      omega
  · rw [buf, place]
    by_cases here : c = b
    · subst here
      rw [Function.update_self]
      exact (refs.lock c).update lock
    · rw [Function.update_of_ne here]
      refine (refs.lock c).update (.stay (fun holds => ?_) (fun holds => ?_) _)
      · exact here (was c holds.slot_eq)
      · exact here (is c holds.slot_eq)
  · rw [buf]
    rw [place] at found
    by_cases self : j = i
    · subst self
      rw [Function.update_self] at found
      obtain ⟨rfl, same⟩ := target k c found
      rwa [Function.update_self]
    · rw [Function.update_of_ne self] at found
      by_cases here : c = b
      · subst here
        rw [Function.update_self]
        rcases id with same | free
        · rw [same]
          exact refs.id j k c found
        · exact absurd (congrArg (Option.map Prod.snd) found) (refs.no_user free j)
      · rw [Function.update_of_ne here]
        exact refs.id j k c found

/-- A user keeps its reference. -/
theorem Refs.keep (refs : s.Refs) (buf : t.buf = Function.update s.buf b q)
    (place : t.place = Function.update s.place i x) (was : (s.place i).target = some (k, b))
    (is : x.target = some (k, b)) (refcnt : q.refcnt = (s.buf b).refcnt)
    (id : q.id = (s.buf b).id)
    (lock : LockMove i ((s.place i).Holds b) (x.Holds b) (s.buf b).lock q.lock) : t.Refs := by
  have wasSlot : (s.place i).slot = some b := congrArg (Option.map Prod.snd) was
  have isSlot : x.slot = some b := congrArg (Option.map Prod.snd) is
  refine refs.move buf place ?_ ?_ ?_ lock (.inl id)
  · intro c eq
    exact Option.some.inj (eq.symm.trans wasSlot)
  · intro k' c eq
    cases Option.some.inj (eq.symm.trans is)
    exact ⟨rfl, id.trans (refs.id i k b was)⟩
  · rw [if_pos wasSlot, if_pos isSlot, refcnt]

theorem Refs.acts (refs : s.Refs) (acts : Acts s t) : t.Refs := by
  cases acts with
  | call i k place =>
    refine refs.move (b := 0) (q := s.buf 0) (Function.update_eq_self 0 s.buf).symm rfl ?_ nofun
      ?_ ?_ (.inl rfl)
    · rw [place]
      exact nofun
    · rw [place]
      rfl
    · rw [place]
      exact .stay nofun nofun _
  | found i k b place same =>
    refine refs.move rfl rfl ?_ ?_ ?_ ?_ (.inl rfl)
    · rw [place]
      exact nofun
    · rintro _ _ ⟨⟩
      exact ⟨rfl, same⟩
    · rw [place, if_neg (show (BufPlace.want k).slot ≠ some b from nofun),
        if_pos (show (BufPlace.wait k b).slot = some b from rfl)]
      dsimp only
      omega
    · rw [place]
      exact .stay nofun nofun _
  | recycled i k b place absent free clean =>
    refine refs.move rfl rfl ?_ ?_ ?_ ?_ (.inr free)
    · rw [place]
      exact nofun
    · rintro _ _ ⟨⟩
      exact ⟨rfl, rfl⟩
    · rw [place, free, if_neg (show (BufPlace.want k).slot ≠ some b from nofun),
        if_pos (show (BufPlace.wait k b).slot = some b from rfl)]
      rfl
    · rw [place]
      exact .stay nofun nofun _
  | locked i k b place free =>
    refine refs.keep rfl rfl (by rw [place]; rfl) rfl rfl rfl ?_
    rw [free]
    exact .take rfl
  | ready i k b place valid | reading i k b place invalid =>
    refine refs.keep (Function.update_eq_self b s.buf).symm rfl (by rw [place]; rfl) rfl rfl rfl ?_
    rw [place]
    exact .keep rfl rfl _
  | stored i k b place dirty | loaded i k b place clean =>
    refine refs.keep rfl rfl ?_ rfl rfl rfl (.keep ?_ rfl _)
    · rcases place with place | place <;> rw [place] <;> rfl
    · rcases place with place | place <;> rw [place] <;> rfl
  | logWrite i k b place data =>
    refine refs.keep rfl (Function.update_eq_self i s.place).symm (by rw [place]; rfl)
      (by rw [place]; rfl) rfl rfl ?_
    rw [place]
    exact .keep rfl rfl _
  | bwrite i k b place data =>
    refine refs.keep rfl rfl (by rw [place]; rfl) rfl rfl rfl ?_
    rw [place]
    exact .keep rfl rfl _
  | brelse i k b place =>
    refine refs.keep rfl rfl (by rw [place]; rfl) rfl rfl rfl ?_
    rw [place]
    exact .drop rfl nofun _
  | unref i k b place =>
    have mine : (s.place i).slot = some b := by
      rw [place]
      rfl
    have counted : 0 < (s.buf b).refcnt :=
      Nat.pos_of_ne_zero fun free => refs.no_user free i mine
    refine refs.move (unref_buf s i b) (unref_place s i b) ?_ nofun ?_ ?_ (.inl rfl)
    · intro c eq
      exact Option.some.inj (eq.symm.trans mine)
    · rw [if_pos mine, if_neg (show BufPlace.idle.slot ≠ some b from nofun)]
      dsimp only
      omega
    · rw [place]
      exact .stay nofun nofun _

/-! ## Data -/

/-- The block that every buffer names after `binit`. -/
def blank : BlockId := ⟨0, 0⟩

structure Coherent (s : BufSys n) : Prop where
  unique : ∀ b c, (s.buf b).id = (s.buf c).id → (s.buf b).id ≠ blank → b = c
  dirty : ∀ b, (s.buf b).dirty = true → (s.buf b).valid = true
  knows : ∀ i, (s.place i).Knows fun b => (s.buf b).valid
  data : ∀ b, (s.buf b).valid = true → (s.buf b).id ≠ blank →
    (s.buf b).data = s.last (s.buf b).id
  disk : ∀ k, k ≠ blank → s.disk k = s.last k ∨
    ∃ b, (s.buf b).id = k ∧ (s.buf b).dirty = true

/-- The block has the data that it had last. -/
theorem Coherent.clean (coherent : s.Coherent) (named : (s.buf b).id ≠ blank)
    (clean : (s.buf b).dirty = false) : s.disk (s.buf b).id = s.last (s.buf b).id := by
  rcases coherent.disk _ named with same | ⟨c, id, dirty⟩
  · exact same
  · rw [coherent.unique b c id.symm named, dirty] at clean
    cases clean

/-- The others know what they knew: nobody else holds the lock of the buffer. -/
theorem Coherent.knows_move (coherent : s.Coherent) (refs : s.Refs)
    (buf : t.buf = Function.update s.buf b q) (place : t.place = Function.update s.place i x)
    (mine : x.Knows fun c => (t.buf c).valid)
    (alone : q.valid = (s.buf b).valid ∨ (s.place i).Holds b ∨ (s.buf b).refcnt = 0) (j : Fin n) :
    (t.place j).Knows fun c => (t.buf c).valid := by
  rw [place]
  by_cases self : j = i
  · subst self
    rwa [Function.update_self]
  · rw [Function.update_of_ne self]
    refine (coherent.knows j).congr fun c holds => ?_
    rw [buf]
    by_cases here : c = b
    · subst here
      rw [Function.update_self]
      rcases alone with same | holder | free
      · exact same
      · exact absurd ((refs.lock c).unique holds holder) self
      · exact absurd holds.slot_eq (refs.no_user free j)
    · rw [Function.update_of_ne here]

/-- Only the lock or the reference count of a buffer changes. -/
theorem Coherent.keep (coherent : s.Coherent) (refs : s.Refs)
    (buf : t.buf = Function.update s.buf b q) (place : t.place = Function.update s.place i x)
    (mine : x.Knows fun c => (s.buf c).valid) (valid : q.valid = (s.buf b).valid)
    (dirty : q.dirty = (s.buf b).dirty) (id : q.id = (s.buf b).id)
    (data : q.data = (s.buf b).data) (disk : t.disk = s.disk) (last : t.last = s.last) :
    t.Coherent := by
  have same : ∀ c, (t.buf c).valid = (s.buf c).valid ∧ (t.buf c).dirty = (s.buf c).dirty ∧
      (t.buf c).id = (s.buf c).id ∧ (t.buf c).data = (s.buf c).data := by
    intro c
    rw [buf]
    by_cases here : c = b
    · subst here
      rw [Function.update_self]
      exact ⟨valid, dirty, id, data⟩
    · rw [Function.update_of_ne here]
      exact ⟨rfl, rfl, rfl, rfl⟩
  have mine' : x.Knows fun c => (t.buf c).valid := mine.congr fun c _ => (same c).1
  refine ⟨fun b c => ?_, fun b => ?_, coherent.knows_move refs buf place mine' (.inl valid),
    fun b => ?_, fun k named => ?_⟩
  · rw [(same b).2.2.1, (same c).2.2.1]
    exact coherent.unique b c
  · rw [(same b).1, (same b).2.1]
    exact coherent.dirty b
  · rw [(same b).1, (same b).2.2.1, (same b).2.2.2, last]
    exact coherent.data b
  · rw [disk, last]
    refine (coherent.disk k named).imp_right fun ⟨c, id, dirty⟩ => ⟨c, ?_, ?_⟩
    · rw [(same c).2.2.1, id]
    · rw [(same c).2.1, dirty]

theorem Coherent.recycle (coherent : s.Coherent) (refs : s.Refs)
    (buf : t.buf = Function.update s.buf b q) (place : t.place = Function.update s.place i x)
    (mine : x.Knows fun c => (t.buf c).valid) (absent : ∀ c, (s.buf c).id ≠ q.id)
    (free : (s.buf b).refcnt = 0) (clean : (s.buf b).dirty = false) (valid : q.valid = false)
    (dirty : q.dirty = false) (disk : t.disk = s.disk) (last : t.last = s.last) :
    t.Coherent := by
  have slot : t.buf b = q := by rw [buf, Function.update_self]
  have other : ∀ {c}, c ≠ b → t.buf c = s.buf c := fun h => by rw [buf, Function.update_of_ne h]
  refine ⟨fun c d same named => ?_, fun c isDirty => ?_,
    coherent.knows_move refs buf place mine (.inr (.inr free)), fun c isValid named => ?_,
    fun k named => ?_⟩
  · by_cases hc : c = b
    · by_cases hd : d = b
      · rw [hc, hd]
      · rw [hc, slot, other hd] at same
        exact absurd same.symm (absent d)
    · by_cases hd : d = b
      · rw [hd, slot, other hc] at same
        exact absurd same (absent c)
      · rw [other hc] at same named
        rw [other hd] at same
        exact coherent.unique c d same named
  · by_cases hc : c = b
    · rw [hc, slot, dirty] at isDirty
      cases isDirty
    · rw [other hc] at isDirty ⊢
      exact coherent.dirty c isDirty
  · by_cases hc : c = b
    · rw [hc, slot, valid] at isValid
      cases isValid
    · rw [other hc] at isValid named ⊢
      rw [last]
      exact coherent.data c isValid named
  · rw [disk, last]
    refine (coherent.disk k named).imp_right fun ⟨c, id, isDirty⟩ => ⟨c, ?_⟩
    have hc : c ≠ b := by
      rintro rfl
      rw [clean] at isDirty
      cases isDirty
    rw [other hc]
    exact ⟨id, isDirty⟩

/-- The holder of its lock changes a buffer, and with it its block. -/
theorem Coherent.work (coherent : s.Coherent) (refs : s.Refs) (holder : (s.place i).Holds b)
    (buf : t.buf = Function.update s.buf b q) (place : t.place = Function.update s.place i x)
    (mine : ∀ v : Bslot → Bool, v b = true → x.Knows v) (id : q.id = (s.buf b).id)
    (valid : q.valid = true)
    (data : (s.buf b).id ≠ blank → q.data = t.last (s.buf b).id)
    (disk : (s.buf b).id ≠ blank → t.disk (s.buf b).id = t.last (s.buf b).id ∨ q.dirty = true)
    (others : ∀ k, k ≠ (s.buf b).id → t.disk k = s.disk k ∧ t.last k = s.last k) :
    t.Coherent := by
  have slot : t.buf b = q := by rw [buf, Function.update_self]
  have other : ∀ {c}, c ≠ b → t.buf c = s.buf c := fun h => by rw [buf, Function.update_of_ne h]
  have ids : ∀ c, (t.buf c).id = (s.buf c).id := by
    intro c
    by_cases hc : c = b
    · rw [hc, slot, id]
    · rw [other hc]
  refine ⟨fun c d => ?_, fun c isDirty => ?_,
    coherent.knows_move refs buf place (mine _ (by rw [slot]; exact valid)) (.inr (.inl holder)),
    fun c isValid named => ?_,
    fun k named => ?_⟩
  · rw [ids, ids]
    exact coherent.unique c d
  · by_cases hc : c = b
    · rw [hc, slot, valid]
    · rw [other hc] at isDirty ⊢
      exact coherent.dirty c isDirty
  · rw [ids] at named ⊢
    by_cases hc : c = b
    · subst hc
      rw [slot]
      exact data named
    · have apart : (s.buf c).id ≠ (s.buf b).id := fun same =>
        hc (coherent.unique c b same named)
      rw [other hc] at isValid ⊢
      rw [(others _ apart).2]
      exact coherent.data c isValid named
  · by_cases here : k = (s.buf b).id
    · subst here
      refine (disk named).imp_right fun isDirty => ⟨b, ids b, ?_⟩
      rw [slot]
      exact isDirty
    · rw [(others k here).1, (others k here).2]
      refine (coherent.disk k named).imp_right fun ⟨c, same, isDirty⟩ => ⟨c, ?_⟩
      have hc : c ≠ b := by
        rintro rfl
        exact here same.symm
      rw [other hc]
      exact ⟨same, isDirty⟩

theorem mark_last (s : BufSys n) (b : Bslot) (data : Block) :
    (s.mark b data).last (s.buf b).id = data :=
  Function.update_self ..

theorem Coherent.acts (coherent : s.Coherent) (refs : s.Refs) (acts : Acts s t) : t.Coherent := by
  cases acts with
  | call i k place =>
    exact coherent.keep refs (b := 0) (Function.update_eq_self 0 s.buf).symm rfl trivial rfl rfl
      rfl rfl rfl rfl
  | found i k b place same | locked i k b place free | brelse i k b place =>
    exact coherent.keep refs rfl rfl trivial rfl rfl rfl rfl rfl rfl
  | recycled i k b place absent free clean =>
    exact coherent.recycle refs rfl rfl trivial absent free clean rfl rfl rfl rfl
  | ready i k b place valid =>
    exact coherent.keep refs (Function.update_eq_self b s.buf).symm rfl valid rfl rfl rfl rfl rfl
      rfl
  | reading i k b place invalid =>
    exact coherent.keep refs (Function.update_eq_self b s.buf).symm rfl invalid rfl rfl rfl rfl
      rfl rfl
  | unref i k b place =>
    exact coherent.keep refs (unref_buf s i b) (unref_place s i b) trivial rfl rfl rfl rfl
      (unref_disk s i b) (unref_last s i b)
  | stored i k b place dirty =>
    have holder : (s.place i).Holds b := by
      rcases place with place | place <;> rw [place] <;> rfl
    have current := coherent.data b (coherent.dirty b dirty)
    refine coherent.work refs holder rfl rfl (fun _ => id) rfl rfl current (fun named => .inl ?_) ?_
    · exact (Function.update_self ..).trans (current named)
    · exact fun k apart => ⟨Function.update_of_ne apart .., rfl⟩
  | loaded i k b place clean =>
    have holder : (s.place i).Holds b := by
      rcases place with place | place <;> rw [place] <;> rfl
    exact coherent.work refs holder rfl rfl (fun _ => id) rfl rfl
      (fun named => coherent.clean named clean)
      (fun named => .inl (coherent.clean named clean)) fun k _ => ⟨rfl, rfl⟩
  | logWrite i k b place data =>
    have valid := coherent.knows i
    have holder : (s.place i).Holds b := by rw [place]; rfl
    rw [place] at valid
    exact coherent.work refs holder rfl (Function.update_eq_self i s.place).symm
      (by rw [place]; exact fun _ => id) rfl valid (fun _ => (mark_last s b data).symm)
      (fun _ => .inr rfl) fun k apart => ⟨rfl, Function.update_of_ne apart ..⟩
  | bwrite i k b place data =>
    have valid := coherent.knows i
    have holder : (s.place i).Holds b := by rw [place]; rfl
    rw [place] at valid
    exact coherent.work refs holder rfl rfl (fun _ => id) rfl valid
      (fun _ => (mark_last s b data).symm) (fun _ => .inr rfl)
      fun k apart => ⟨rfl, Function.update_of_ne apart ..⟩

/-! ## Runs -/

structure Sound (s : BufSys n) : Prop where
  listed : Listed s.links
  refs : s.Refs
  coherent : s.Coherent

theorem sound_init (n : Nat) (disk : BlockId → Block) : (init n disk).Sound where
  listed := listed_binit
  refs := ⟨fun _ => (Finset.sum_eq_zero fun _ _ => rfl).symm, fun _ _ => ⟨nofun, nofun⟩, nofun⟩
  coherent := ⟨fun _ _ _ named => absurd rfl named, nofun, fun _ => trivial, nofun,
    fun _ _ => .inl rfl⟩

theorem Sound.of_run {disk : BlockId → Block} (run : Run Step anyStep (init n disk) s) :
    s.Sound :=
  Run.invariant run Sound (sound_init n disk) fun _ _ _ ⟨listed, refs, coherent⟩ _ step =>
    have acts := step.acts listed
    ⟨listed.acts acts, refs.acts acts, coherent.acts refs acts⟩

/-- A step gives a buffer to another block only if it is clean and nobody has a reference to it. -/
theorem Acts.id_eq (acts : Acts s t) (busy : 0 < (s.buf b).refcnt ∨ (s.buf b).dirty = true) :
    (t.buf b).id = (s.buf b).id := by
  have keep : ∀ {c q}, q.id = (s.buf c).id →
      (Function.update s.buf c q b).id = (s.buf b).id := by
    intro c q same
    by_cases here : b = c
    · rw [here, Function.update_self, same]
    · rw [Function.update_of_ne here]
  cases acts with
  | recycled i k c place absent free clean =>
    have here : b ≠ c := by
      rintro rfl
      rw [free, clean] at busy
      rcases busy with busy | busy <;> cases busy
    exact congrArg Buf.id (Function.update_of_ne here ..)
  | unref i k c place =>
    rw [unref_buf]
    exact keep rfl
  | call => rfl
  | ready => rfl
  | reading => rfl
  | _ => exact keep rfl

/-- **The buffer cache.**  In every interleaving: the links form one ring of all buffers through the
head; a block, other than the one every buffer names at first, is in one buffer at most; a
step never gives a buffer that is referenced or dirty to another block; and what a user gets
from `bread` is a buffer of the block it has asked for, with the data that were logged or
written last. -/
theorem buffer_cache {disk : BlockId → Block} (run : Run Step anyStep (init n disk) s) :
    (∃ order : List Bslot, Ring s.links none (order.map some) ∧ order.Nodup ∧
      ∀ b, b ∈ order) ∧
    (∀ b c, (s.buf b).id = (s.buf c).id → (s.buf b).id ≠ ⟨0, 0⟩ → b = c) ∧
    (∀ a t, Step s a t → ∀ b, 0 < (s.buf b).refcnt ∨ (s.buf b).dirty = true →
      (t.buf b).id = (s.buf b).id) ∧
    (∀ i k b, s.place i = .hold k b → (s.buf b).id = k ∧
      (k ≠ ⟨0, 0⟩ → (s.buf b).data = s.last k)) := by
  obtain ⟨listed, refs, coherent⟩ := Sound.of_run run
  refine ⟨?_, coherent.unique, fun a t step b busy => (step.acts listed).id_eq busy,
    fun i k b place => ?_⟩
  · obtain ⟨order, ring, all⟩ := listed
    exact ⟨order, ring, List.Nodup.of_map _ (List.nodup_cons.mp ring.nodup).2, all⟩
  · have valid := coherent.knows i
    rw [place] at valid
    have id : (s.buf b).id = k := refs.id i k b (by rw [place]; rfl)
    refine ⟨id, fun named => ?_⟩
    rw [← id] at named ⊢
    exact coherent.data b valid named

/-- A block is logged and the buffer given back; the next user sees the new data, which are not on
the disk yet. -/
theorem buffer_cache_logged : ∃ s : BufSys 2, s.place 1 = .hold ⟨1, 5⟩ 0 ∧
    (s.buf 0).data 0 = 9 ∧ s.disk ⟨1, 5⟩ 0 = 0 := by
  have steps : (follow act [.bread 0 ⟨1, 5⟩, .run 0, .run 0, .run 0, .run 0,
      .logWrite 0 fun _ => 9, .brelse 0, .run 0, .bread 1 ⟨1, 5⟩, .run 1, .run 1, .run 1]
      (init 2 fun _ _ => 0)).any (fun s => decide (s.place 1 = .hold ⟨1, 5⟩ 0 ∧
        s.last ⟨1, 5⟩ 0 = 9 ∧ s.disk ⟨1, 5⟩ 0 = 0)) = true := by
    decide +kernel
  obtain ⟨s, run, shape⟩ := Run.follow_any Step anyStep (fun _ _ _ h => ⟨trivial, h⟩) steps
  obtain ⟨place, last, disk⟩ := of_decide_eq_true shape
  obtain ⟨-, -, -, sees⟩ := buffer_cache run
  have data := (sees 1 ⟨1, 5⟩ 0 place).2 nofun
  exact ⟨s, place, by rw [data]; exact last, disk⟩

end BufSys

end RandomRepo.Xv6
