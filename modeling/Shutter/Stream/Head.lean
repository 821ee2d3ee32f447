import Mathlib.Algebra.Order.Ring.Nat
import Shutter.Acsm.Table

/-! The stream cache of `get_data.c` and the functions of `loop-1831-wxy.c` that work on one
`data_head`.  The chain from `first_up` to `last_up` is a list, and `temp_up` is an index into it.
The part of a head that belongs to `process_gzip_data` is a parameter. -/

namespace Shutter.Stream

open Shutter.Acsm (cstr)

/-- The bytes of a `data_segment`. -/
abbrev Segment := List UInt8

/-- A `tcp_stream`, as far as the cache looks at it. -/
structure TcpStream where
  id : Nat
  gkState : Int
  deriving DecidableEq

/-- A `data_head`. -/
structure DataHead (Gzip : Type) where
  aTcp : Option TcpStream
  up : List Segment
  tempUp : Option Nat
  offsetUp : Nat
  down : List Segment
  gzip : Gzip

variable {Gzip : Type}

/-- `check_gk`: the return value, and the head after it. -/
def checkGk (gkMethod : Int) (dh : DataHead Gzip) : Bool × DataHead Gzip :=
  match dh.aTcp with
  | none => (true, dh)
  | some a =>
    if a.gkState = gkMethod then (true, dh)
    else if dh.up = [] then (true, dh)
    else
      match dh.tempUp with
      | none => (false, { dh with tempUp := some 0 })
      | some t => (t + 1 = dh.up.length, dh)

/-- `set_gk`. -/
def setGk (dh : DataHead Gzip) (method : Int) : DataHead Gzip :=
  if method ≠ 5 then { dh with aTcp := dh.aTcp.map fun a => { a with gkState := method } } else dh

/-- `get_buffer`: the bytes from `temp_up` to `last_up`, or `none` for the null pointer. -/
def getBuffer (dh : DataHead Gzip) : Option (List UInt8) :=
  match dh.aTcp with
  | none => none
  | some _ =>
    match dh.tempUp with
    | none => some []
    | some t => some ((dh.up.drop t).flatten.drop dh.offsetUp)

/-- The loop of `update_dh`: the number of segments that it passes before their lengths add up to
`len`. -/
def passed (len : Nat) : Nat → List Segment → Nat
  | _, [] => 0
  | sum, ds :: rest => if sum < len then passed len (sum + ds.length) rest + 1 else 0

/-- The index of `last_up`. -/
def lastUp (dh : DataHead Gzip) : Option Nat :=
  if dh.up = [] then none else some (dh.up.length - 1)

/-- `update_dh`: the cursor moves to the segment behind the ones passed, or to the last one. -/
def updateDh (dh : DataHead Gzip) (request : List (List UInt8)) : DataHead Gzip :=
  match dh.aTcp with
  | none => dh
  | some _ =>
    let len := (request.map List.length).sum
    let pdsTemp := dh.tempUp.bind fun t =>
      let next := t + passed len 0 (dh.up.drop t)
      if next < dh.up.length then some next else none
    { dh with tempUp := match pdsTemp with
                        | none => lastUp dh
                        | some next => some next
              offsetUp := 0 }

/-! ### Requests -/

/-- The alternatives of `regForHttp`. -/
def markers : List (List UInt8) :=
  [['P', 'O', 'S', 'T', ' ', '/'], ['G', 'E', 'T', ' ', '/'],
   ['O', 'P', 'T', 'I', 'O', 'N', 'S', ' ', '/'], ['H', 'E', 'A', 'D', ' ', '/'],
   ['P', 'U', 'T', ' ', '/'], ['C', 'O', 'N', 'N', 'E', 'C', 'T', ' ', '/'],
   ['D', 'E', 'L', 'E', 'T', 'E', ' ', '/'], ['T', 'R', 'A', 'C', 'E', ' ', '/']].map
    fun m => m.map fun c => c.toNat.toUInt8

/-- The marker at the start of the string.  At most one alternative can match there. -/
def markerAt (s : List UInt8) : Option (List UInt8) := markers.find? fun m => m.isPrefixOf s

/-- `regexec` with `regForHttp`: `rm_so` and `rm_eo` of the leftmost match. -/
def regexec : List UInt8 → Option (Nat × Nat)
  | [] => none
  | c :: s =>
    match markerAt (c :: s) with
    | some m => some (0, m.length)
    | none => (regexec s).map fun (so, eo) => (so + 1, eo + 1)

/-- The loop of `get_ReN`, from the buffer that is left, `anchor`, `so`, `eo` and the offsets found
so far.  A round takes bytes off the buffer, so there are at most as many as it has. -/
def reNLoop : Nat → List UInt8 → Nat → Nat → Nat → List Nat → List Nat
  | 0, _, _, _, _, offset => offset
  | fuel + 1, buffer, anchor, so, eo, offset =>
    match regexec buffer with
    | none => offset
    | some (so', eo') =>
      let anchor := anchor + (eo - so) + so'
      let offset := offset ++ [anchor]
      let buffer := buffer.drop eo'
      if eo' = buffer.length then offset else reNLoop fuel buffer anchor so' eo' offset

/-- `get_ReN`: the offsets of the requests in the string.  The arrays have 100 entries, and one is
for the end of the buffer. -/
def getReN (buffer : List UInt8) : Option (List Nat) :=
  let offset := reNLoop (buffer.length + 1) buffer 0 0 0 []
  if offset.length < 100 then some offset else none

/-- The lengths `offset[i + 1] - offset[i]`, where the end of the buffer is the last offset. -/
def lengths (bufferLen : Nat) : List Nat → List Nat
  | [] => []
  | [o] => [bufferLen - o]
  | o :: o' :: offset => (o' - o) :: lengths bufferLen (o' :: offset)

/-- The copies of `get_request`: one piece after the other. -/
def pieces (p : List UInt8) : List Nat → List (List UInt8)
  | [] => []
  | len :: lens => p.take len :: pieces (p.drop len) lens

/-- `get_request`, on the string in the buffer. -/
def getRequest (buffer : List UInt8) : Option (List (List UInt8)) := do
  let buffer := cstr buffer
  match ← getReN buffer with
  | [] => some []
  | o :: offset => some (pieces (buffer.drop o) (lengths buffer.length (o :: offset)))

/-! ### Segments -/

/-- The branch of `insert_new_data_segment` for a stream that the head holds, with a segment from
the client. -/
def appendUp (dh : DataHead Gzip) (ds : Segment) : DataHead Gzip := { dh with up := dh.up ++ [ds] }

/-- What `check_gk` can do: it ends the poll and changes nothing, it puts the cursor on the first
segment, or it leaves a cursor that is not on the last segment. -/
theorem checkGk_cases (gkMethod : Int) (dh : DataHead Gzip) :
    (checkGk gkMethod dh = (true, dh) ∧ (dh.aTcp = none ∨
      (∃ a, dh.aTcp = some a ∧ a.gkState = gkMethod) ∨ dh.up = [] ∨
      ∃ t, dh.tempUp = some t ∧ t + 1 = dh.up.length)) ∨
    (dh.up ≠ [] ∧
    ((dh.tempUp = none ∧ checkGk gkMethod dh = (false, { dh with tempUp := some 0 })) ∨
      ∃ t, dh.tempUp = some t ∧ t + 1 ≠ dh.up.length ∧
        checkGk gkMethod dh = (false, dh))) := by
  unfold checkGk
  cases ha : dh.aTcp with
  | none => exact Or.inl ⟨rfl, Or.inl rfl⟩
  | some a =>
    by_cases hBlocked : a.gkState = gkMethod
    · exact Or.inl ⟨if_pos hBlocked, Or.inr (Or.inl ⟨a, rfl, hBlocked⟩)⟩
    · by_cases hUp : dh.up = []
      · exact Or.inl ⟨by simp [hBlocked, hUp], Or.inr (Or.inr (Or.inl hUp))⟩
      · cases ht : dh.tempUp with
        | none => exact Or.inr ⟨hUp, Or.inl ⟨rfl, by simp [hBlocked, hUp]⟩⟩
        | some t =>
          by_cases hLast : t + 1 = dh.up.length
          · exact Or.inl ⟨by simp [hBlocked, hUp, hLast],
              Or.inr (Or.inr (Or.inr ⟨t, rfl, hLast⟩))⟩
          · exact Or.inr ⟨hUp, Or.inr ⟨t, rfl, hLast, by simp [hBlocked, hUp, hLast]⟩⟩

/-- The loop of `update_dh` stops at the first segment boundary that `len` bytes do not pass. -/
theorem passed_spec (len sum : Nat) (l : List Segment) :
    passed len sum l ≤ l.length ∧
    ∀ j < passed len sum l, sum + (l.take j).flatten.length < len := by
  induction l generalizing sum with
  | nil => exact ⟨Nat.le_refl _, fun j hj => absurd hj (Nat.not_lt_zero j)⟩
  | cons ds rest ih =>
    obtain ⟨hLe, hBefore⟩ := ih (sum + ds.length)
    unfold passed
    split
    · refine ⟨Nat.succ_le_succ hLe, fun j hj => ?_⟩
      cases j with
      | zero => simpa
      | succ j =>
        have := hBefore j (Nat.lt_of_succ_lt_succ hj)
        simp only [List.take_succ_cons, List.flatten_cons, List.length_append]
        omega
    · exact ⟨Nat.zero_le _, fun j hj => absurd hj (Nat.not_lt_zero j)⟩

theorem pieces_length_le (p : List UInt8) (lens : List Nat) :
    ((pieces p lens).map List.length).sum ≤ p.length := by
  induction lens generalizing p with
  | nil => simp [pieces]
  | cons len lens ih =>
    have := ih (p.drop len)
    simp only [pieces, List.map_cons, List.sum_cons, List.length_take, List.length_drop] at this ⊢
    omega

theorem getRequest_length_le {buffer : List UInt8} {request : List (List UInt8)}
    (h : getRequest buffer = some request) : (request.map List.length).sum ≤ buffer.length := by
  have hString : (cstr buffer).length ≤ buffer.length := (List.takeWhile_prefix _).length_le
  unfold getRequest at h
  cases hReN : getReN (cstr buffer) with
  | none => simp [hReN] at h
  | some offset =>
    cases offset with
    | nil =>
      simp only [hReN, Option.bind_eq_bind, Option.bind_some, Option.some.injEq] at h
      subst h
      exact Nat.zero_le _
    | cons o offset =>
      simp only [hReN, Option.bind_eq_bind, Option.bind_some, Option.some.injEq] at h
      subst h
      refine Nat.le_trans (pieces_length_le _ _) ?_
      rw [List.length_drop]
      omega

end Shutter.Stream
