import Shutter.Stream.Bucket
import Shutter.Stream.Poll

/-! The requests of one connection that polls pass to `get_decision`, by their places in the stream.
A poll starts at the segment at `temp_up`.  `update_dh` leaves it at the last segment, and a hit
leaves it where it was, so a later buffer can hold requests of earlier ones again. -/

namespace Shutter.Stream

open Shutter.Library
open Shutter.Acsm (ascii cstr cstr_eq)

variable {Gzip : Type}

/-- The offsets that `get_ReN` has found in the buffer of a poll. -/
def offsets : Option (List UInt8) → List Nat
  | none => []
  | some buffer => (getReN (cstr buffer)).getD []

/-- The places in the stream of the requests that are passed on in full, out of the offsets in a
buffer from `base` on and the requests passed on. -/
def complete (stream : List UInt8) (base : Nat) (found : List (Nat × List UInt8)) : List Nat :=
  (found.filter fun q => q.2 = requestFrom (stream.drop (base + q.1))).map fun q => base + q.1

/-- Where the poll is.  Behind `get_buffer` it has the buffer, which starts at byte `base` of the
stream. -/
inductive DecisionPoll where
  | idle
  | checked
  | got (buffer : Option (List UInt8)) (base : Nat)

/-- The client or the server sends a segment, the connection is closed, or the poll runs one of its
calls.  `locked` tells whether `pthread_mutex_trylock` gets the lock, `gkState` is what
`process_gzip_data` leaves, and `status` is what `get_decision` returns. -/
inductive DecisionStep where
  | request
  | response (gkState : Int)
  | close
  | checkGk (locked : Bool)
  | getBuffer (locked : Bool)
  | finish (locked : Bool) (status : List UInt8 → Int)

/-- One connection and the poll of its head: the segments that have yet to come in, the ranges of
the stream that have been in a buffer, and the places of the requests that `get_decision` has had in
full. -/
structure DecisionState (Gzip : Type) where
  dh : DataHead Gzip
  coming : List Segment
  poll : DecisionPoll
  returned : List (Nat × Nat)
  decided : List Nat

/-- The byte of the stream that `get_buffer` starts at. -/
def DecisionState.cursor (s : DecisionState Gzip) : Nat :=
  startOf s.dh.up (s.dh.tempUp.getD 0) + s.dh.offsetUp

/-- The steps on a connection whose client sends the bytes of `stream`. -/
def DecisionState.step (gkMethod : Int) (stream : List UInt8) (s : DecisionState Gzip) :
    DecisionStep → Option (DecisionState Gzip)
  | .request =>
    match s.dh.aTcp, s.coming with
    | some _, ds :: coming => some { s with dh := appendUp s.dh ds, coming }
    | _, _ => none
  | .response gkState =>
    some { s with dh := { s.dh with aTcp := s.dh.aTcp.map fun a => { a with gkState } } }
  | .close =>
    some { s with dh := { s.dh with aTcp := none, up := [], offsetUp := 0, down := [] } }
  | .checkGk locked =>
    match s.poll with
    | .idle =>
      let (ret, dh) := if locked then Stream.checkGk gkMethod s.dh else (false, s.dh)
      some { s with dh, poll := if ret then .idle else .checked }
    | _ => none
  | .getBuffer locked =>
    match s.poll with
    | .checked =>
      let buffer := if locked then Stream.getBuffer s.dh else none
      some { s with poll := .got buffer s.cursor
                    returned := s.returned ++
                      (buffer.map fun bytes => (s.cursor, s.cursor + bytes.length)).toList }
    | _ => none
  | .finish locked status =>
    match s.poll with
    | .got buffer base => do
      let request ← requests buffer
      let (seen, isgk) := inspect status request
      let dh := if isgk then setGk s.dh gkMethod else updateDh s.dh request
      some { s with dh := if locked then dh else s.dh
                    poll := .idle
                    decided := s.decided ++ complete stream base ((offsets buffer).zip seen) }
    | _ => none

/-- A head that has just been taken for a stream whose client will send the segments. -/
def DecisionState.start (a : TcpStream) (gzip : Gzip) (segments : List Segment) :
    DecisionState Gzip where
  dh := ⟨some a, [], none, 0, [], gzip⟩
  coming := segments
  poll := .idle
  returned := []
  decided := []

/-- The range of the stream holds the request at `p`, and shows where it ends: up to the end of the
range it is the request that it is in the whole stream. -/
def Shows (stream : List UInt8) (range : Nat × Nat) (p : Nat) : Prop :=
  range.1 ≤ p ∧ Marked (stream.drop p) ∧
    requestFrom ((stream.take range.2).drop p) = requestFrom (stream.drop p)

/-- The condition on a step: when `get_buffer` reads, no request from the cursor on has been shown
by an earlier buffer. -/
def DecisionState.Ok (stream : List UInt8) (s : DecisionState Gzip) (e : DecisionStep) : Prop :=
  e = .getBuffer true → s.dh.aTcp.isSome → ∀ range ∈ s.returned, ∀ p, s.cursor ≤ p →
    ¬Shows stream range p

/-! ### The requests of a buffer -/

/-- `get_ReN` finds the markers from the first one on, and may stop before the last. -/
theorem reNLoop_take {t : List UInt8} {fuel a anchor so eo : Nat} {offset : List Nat}
    (hBase : anchor + (eo - so) = a) :
    ∃ k, reNLoop fuel (t.drop a) anchor so eo offset =
      offset ++ ((positions (t.drop a)).map (a + ·)).take k := by
  induction fuel generalizing a anchor so eo offset with
  | zero => exact ⟨0, by simp [reNLoop]⟩
  | succ fuel ih =>
    unfold reNLoop
    rcases regexec_spec (t.drop a) with ⟨hNone, -⟩ | ⟨so', m, hSome, hm, hPrefix, hBefore⟩
    · exact ⟨0, by simp [hNone]⟩
    · have hPositions := positions_match hm hPrefix hBefore
      simp only [hSome, List.drop_drop, hBase, hPositions, List.map_cons, List.map_map]
      split
      · exact ⟨1, by simp⟩
      · obtain ⟨k, hk⟩ : ∃ k, reNLoop fuel (t.drop (a + (so' + m.length))) (a + so') so'
            (so' + m.length) (offset ++ [a + so']) = offset ++ [a + so'] ++
              ((positions (t.drop (a + (so' + m.length)))).map
                (a + (so' + m.length) + ·)).take k :=
          ih (by omega)
        refine ⟨k + 1, ?_⟩
        rw [hk, List.take_succ_cons, List.append_assoc, List.singleton_append]
        congr 4
        funext p
        simp only [Function.comp_apply]
        omega

theorem getReN_take {t : List UInt8} {offset : List Nat} (h : getReN t = some offset) :
    ∃ k, offset = (positions t).take k := by
  have hLoop : ∃ k, reNLoop (t.length + 1) (t.drop 0) 0 0 0 [] =
      [] ++ ((positions (t.drop 0)).map (0 + ·)).take k := reNLoop_take rfl
  simp only [List.drop_zero, List.nil_append, Nat.zero_add, List.map_id'] at hLoop
  obtain ⟨k, hk⟩ := hLoop
  unfold getReN at h
  simp only [Option.ite_none_right_eq_some, Option.some.injEq] at h
  exact ⟨k, by rw [← h.2, hk]⟩

theorem getReN_sorted {t : List UInt8} {offset : List Nat} (h : getReN t = some offset) :
    offset.Pairwise (· < ·) := by
  obtain ⟨k, rfl⟩ := getReN_take h
  exact (positions_sorted t).sublist (List.take_sublist k _)

theorem getReN_marked {t : List UInt8} {offset : List Nat} (h : getReN t = some offset) {p : Nat}
    (hp : p ∈ offset) : Marked (t.drop p) := by
  obtain ⟨k, rfl⟩ := getReN_take h
  exact mem_positions.mp (List.mem_of_mem_take hp)

theorem offsets_sorted (buffer : Option (List UInt8)) : (offsets buffer).Pairwise (· < ·) := by
  cases buffer with
  | none => exact List.Pairwise.nil
  | some buffer =>
    cases hReN : getReN (cstr buffer) with
    | none => simp [offsets, hReN]
    | some offset => simpa [offsets, hReN] using getReN_sorted hReN

/-- Each piece starts at its offset and ends at a later offset or at the end of the string. -/
theorem pieces_zip {t : List UInt8} {o : Nat} {offset : List Nat}
    (hSorted : (o :: offset).Pairwise (· < ·)) (hLe : ∀ p ∈ o :: offset, p ≤ t.length)
    {q : Nat × List UInt8}
    (h : q ∈ (o :: offset).zip (pieces (t.drop o) (lengths t.length (o :: offset)))) :
    q.1 ∈ o :: offset ∧ q.2 <+: t.drop q.1 ∧
      (q.1 + q.2.length = t.length ∨ q.1 + q.2.length ∈ offset) := by
  induction offset generalizing o with
  | nil =>
    have ho := hLe o List.mem_cons_self
    simp only [lengths, pieces, List.zip_cons_cons, List.zip_nil_left, List.mem_singleton] at h
    subst h
    refine ⟨List.mem_cons_self, List.take_prefix _ _, Or.inl ?_⟩
    simp only [List.length_take, List.length_drop]
    omega
  | cons o' offset ih =>
    obtain ⟨hFirst, hRest⟩ := List.pairwise_cons.mp hSorted
    have hLt := hFirst o' List.mem_cons_self
    have ho' := hLe o' (List.mem_cons_of_mem _ List.mem_cons_self)
    rw [lengths, pieces, List.zip_cons_cons, List.mem_cons, List.drop_drop,
      Nat.add_sub_cancel' (Nat.le_of_lt hLt)] at h
    rcases h with rfl | h
    · refine ⟨List.mem_cons_self, List.take_prefix _ _, Or.inr ?_⟩
      have hEnd : o + ((t.drop o).take (o' - o)).length = o' := by
        simp only [List.length_take, List.length_drop]
        omega
      rw [hEnd]
      exact List.mem_cons_self
    · obtain ⟨hMem, hPrefix, hEnd⟩ :=
        ih hRest (fun p hp => hLe p (List.mem_cons_of_mem _ hp)) h
      exact ⟨List.mem_cons_of_mem _ hMem, hPrefix, hEnd.imp_right (List.mem_cons_of_mem _)⟩

theorem marked_le {t : List UInt8} {p : Nat} (h : Marked (t.drop p)) : p ≤ t.length := by
  by_contra hGt
  rw [List.drop_eq_nil_of_le (by omega)] at h
  exact not_marked_nil h

/-- What is passed on of a buffer: markers, with the bytes up to a later marker or to the end of the
string in the buffer. -/
theorem requests_zip {buffer : List UInt8} {request : List (List UInt8)}
    (h : getRequest buffer = some request) {q : Nat × List UInt8}
    (hq : q ∈ (offsets (some buffer)).zip request) :
    Marked ((cstr buffer).drop q.1) ∧ q.2 <+: (cstr buffer).drop q.1 ∧
      (q.1 + q.2.length = (cstr buffer).length ∨
        Marked ((cstr buffer).drop (q.1 + q.2.length))) := by
  unfold getRequest at h
  cases hReN : getReN (cstr buffer) with
  | none => simp [hReN] at h
  | some offset =>
    simp only [offsets, hReN, Option.getD_some] at hq
    cases offset with
    | nil => simp at hq
    | cons o offset =>
      simp only [hReN, Option.bind_eq_bind, Option.bind_some, Option.some.injEq] at h
      subst h
      obtain ⟨hMem, hPrefix, hEnd⟩ := pieces_zip (getReN_sorted hReN)
        (fun p hp => marked_le (getReN_marked hReN hp)) hq
      refine ⟨getReN_marked hReN hMem, hPrefix, hEnd.imp_right fun hNext => ?_⟩
      exact getReN_marked hReN (List.mem_cons_of_mem _ hNext)

theorem requestFrom_end (s : List UInt8) :
    s.drop (requestFrom s).length = [] ∨ Marked (s.drop (requestFrom s).length) := by
  have hUpTo : ∀ s : List UInt8,
      s.drop (upToMarker s).length = [] ∨ Marked (s.drop (upToMarker s).length) := by
    intro s
    induction s with
    | nil => exact Or.inl rfl
    | cons c s ih =>
      unfold upToMarker
      split
      · rename_i hMarked
        exact Or.inr hMarked
      · simpa using ih
  cases s with
  | nil => exact Or.inl rfl
  | cons c s => simpa [requestFrom] using hUpTo s

theorem not_marked_zero (s : List UInt8) : ¬Marked (0 :: s) := by
  rintro ⟨m, hm, hPrefix⟩
  have hHead : ∀ m ∈ markers, m.head? ≠ some 0 ∧ m ≠ [] := by decide
  obtain ⟨hZero, hNonempty⟩ := hHead m hm
  cases m with
  | nil => exact hNonempty rfl
  | cons c m =>
    obtain ⟨rfl, -⟩ := List.cons_prefix_cons.mp hPrefix
    exact hZero rfl

theorem cstr_split (buffer : List UInt8) :
    ∃ tail, cstr buffer ++ tail = buffer ∧ (tail = [] ∨ ∃ rest, tail = 0 :: rest) := by
  induction buffer with
  | nil => exact ⟨[], rfl, Or.inl rfl⟩
  | cons c buffer ih =>
    by_cases hc : c = 0
    · exact ⟨c :: buffer, by simp [cstr, hc], Or.inr ⟨buffer, by rw [hc]⟩⟩
    · obtain ⟨tail, hTail, hEnd⟩ := ih
      refine ⟨tail, ?_, hEnd⟩
      conv_rhs => rw [← hTail]
      simp [cstr, hc]

theorem shows_of_complete {stream buffer : List UInt8} {base : Nat}
    (hBuffer : buffer <+: stream.drop base) {request : List (List UInt8)}
    (hRequest : getRequest buffer = some request) {q : Nat × List UInt8}
    (hq : q ∈ (offsets (some buffer)).zip request)
    (hComplete : q.2 = requestFrom (stream.drop (base + q.1))) :
    Shows stream (base, base + buffer.length) (base + q.1) := by
  obtain ⟨hMarked, hPrefix, hEnd⟩ := requests_zip hRequest hq
  obtain ⟨rest, hRest⟩ := hBuffer
  obtain ⟨tail, hTail, hZero⟩ := cstr_split buffer
  have hLe := marked_le hMarked
  have hString : buffer.drop q.1 = (cstr buffer).drop q.1 ++ tail := by
    conv_lhs => rw [← hTail]
    exact List.drop_append_of_le_length hLe
  have hLength : q.1 ≤ buffer.length := by
    rw [← hTail, List.length_append]
    omega
  have hStream : stream.drop (base + q.1) = buffer.drop q.1 ++ rest := by
    rw [← List.drop_drop, ← hRest]
    exact List.drop_append_of_le_length hLength
  have hTake : (stream.take (base + buffer.length)).drop (base + q.1) = buffer.drop q.1 := by
    rw [← List.drop_drop, List.drop_take, Nat.add_sub_cancel_left, ← hRest, List.take_left]
  have hHere : Marked (buffer.drop q.1) := hString ▸ hMarked.append tail
  refine ⟨Nat.le_add_right _ _, hStream ▸ hHere.append rest, ?_⟩
  rw [hTake]
  by_cases hMore : ∃ i > 0, Marked ((buffer.drop q.1).drop i)
  · obtain ⟨i, hi, hNext⟩ := hMore
    rw [hStream, requestFrom_append hi hNext]
  · -- no marker of the buffer ends the request, so it is the rest of the string
    push Not at hMore
    have hPos : 0 < q.2.length := by
      rw [hComplete, hStream]
      cases hDrop : buffer.drop q.1 with
      | nil => simp [hDrop] at hHere
      | cons c s => simp [requestFrom]
    have hAll : q.2 = (cstr buffer).drop q.1 := by
      rcases hEnd with hEnd | hEnd
      · refine hPrefix.eq_of_length ?_
        rw [List.length_drop]
        omega
      · refine absurd ?_ (hMore q.2.length hPos)
        rw [← List.drop_drop] at hEnd
        rw [hString, List.drop_append_of_le_length hPrefix.length_le]
        exact hEnd.append tail
    have hNoTail : tail = [] := by
      rcases hZero with hNil | ⟨tail, rfl⟩
      · exact hNil
      · exfalso
        have hBehind := requestFrom_end (stream.drop (base + q.1))
        rw [← hComplete, hStream, hString, hAll, List.append_assoc, List.drop_left,
          List.cons_append] at hBehind
        rcases hBehind with hNil | hZeroMarked
        · cases hNil
        · exact not_marked_zero _ hZeroMarked
    rw [hNoTail, List.append_nil] at hString
    rw [← hComplete, hAll, ← hString]
    exact requestFrom_of_last (p := 0) (by simpa using hMore)

/-! ### The places of the requests -/

theorem mem_complete {stream : List UInt8} {base p : Nat} {found : List (Nat × List UInt8)} :
    p ∈ complete stream base found ↔
      ∃ q ∈ found, q.2 = requestFrom (stream.drop (base + q.1)) ∧ base + q.1 = p := by
  simp [complete, and_assoc]

theorem complete_sorted (stream : List UInt8) (base : Nat) {offset : List Nat}
    (hSorted : offset.Pairwise (· < ·)) (seen : List (List UInt8)) :
    (complete stream base (offset.zip seen)).Pairwise (· < ·) := by
  have hZip : (offset.zip seen).Pairwise fun q q' => q.1 < q'.1 := by
    induction offset generalizing seen with
    | nil => exact List.Pairwise.nil
    | cons o offset ih =>
      obtain ⟨hFirst, hRest⟩ := List.pairwise_cons.mp hSorted
      cases seen with
      | nil => exact List.Pairwise.nil
      | cons r seen =>
        refine List.Pairwise.cons ?_ (ih hRest seen)
        intro q hq
        exact hFirst q.1 (List.of_mem_zip hq).1
  apply List.Pairwise.map (R := fun q q' => q.1 < q'.1)
  · intro q q' hLt
    exact Nat.add_lt_add_left hLt base
  · exact hZip.filter _

theorem inspect_passes (status : List UInt8 → Int) (request : List (List UInt8)) :
    (inspect status request).1 <+: request := by
  induction request with
  | nil => exact List.nil_prefix
  | cons r request ih =>
    unfold inspect
    split
    · exact List.cons_prefix_cons.mpr ⟨rfl, ih⟩
    · exact List.cons_prefix_cons.mpr ⟨rfl, List.nil_prefix⟩

theorem mem_zip_of_prefix {offset : List Nat} {seen request : List (List UInt8)}
    (h : seen <+: request) {q : Nat × List UInt8} (hq : q ∈ offset.zip seen) :
    q ∈ offset.zip request := by
  obtain ⟨rest, rfl⟩ := h
  induction offset generalizing seen with
  | nil => simp at hq
  | cons o offset ih =>
    cases seen with
    | nil => simp at hq
    | cons r seen =>
      rw [List.zip_cons_cons, List.mem_cons] at hq
      rw [List.cons_append, List.zip_cons_cons, List.mem_cons]
      exact hq.imp_right ih

/-! ### The invariant -/

/-- What the poll holds behind `get_buffer`: bytes of the stream, all of whose decided requests
start before them. -/
def DecisionState.Holds (stream : List UInt8) (s : DecisionState Gzip) : Prop :=
  ∀ buffer base, s.poll = .got (some buffer) base →
    buffer <+: stream.drop base ∧ (base, base + buffer.length) ∈ s.returned ∧
      ∀ p ∈ s.decided, p < base

/-- What holds in every state of a run: the head has the first part of the stream, and a request
that has been decided was shown by a buffer. -/
structure DecisionState.Inv (stream : List UInt8) (s : DecisionState Gzip) : Prop where
  segments : s.dh.aTcp.isSome → s.dh.up.flatten ++ s.coming.flatten = stream
  offset : s.dh.offsetUp = 0
  holds : s.Holds stream
  shown : ∀ p ∈ s.decided, ∃ range ∈ s.returned, Shows stream range p
  nodup : s.decided.Nodup

variable {gkMethod : Int} {stream : List UInt8} {s s' : DecisionState Gzip}

theorem DecisionState.start_inv (a : TcpStream) (gzip : Gzip) (segments : List Segment) :
    (DecisionState.start a gzip segments).Inv segments.flatten where
  segments _ := rfl
  offset := rfl
  holds := by
    intro buffer base hPoll
    cases hPoll
  shown := by
    intro p hp
    cases hp
  nodup := List.nodup_nil

theorem DecisionState.Inv.write (h : s.Inv stream) {dh : DataHead Gzip} {coming : List Segment}
    (hStream : dh.aTcp.isSome → dh.up.flatten ++ coming.flatten = stream)
    (hOffset : dh.offsetUp = 0) :
    ({ s with dh, coming } : DecisionState Gzip).Inv stream :=
  ⟨hStream, hOffset, h.holds, h.shown, h.nodup⟩

theorem DecisionState.Inv.request (h : s.Inv stream)
    (hStep : s.step gkMethod stream .request = some s') : s'.Inv stream := by
  simp only [step] at hStep
  split at hStep
  · rename_i a ds coming ha hComing
    obtain rfl := Option.some.inj hStep
    refine h.write ?_ h.offset
    intro _
    have hStream := h.segments (by rw [ha]; rfl)
    simpa [appendUp, hComing] using hStream
  · cases hStep

theorem DecisionState.Inv.response (h : s.Inv stream) {gkState : Int}
    (hStep : s.step gkMethod stream (.response gkState) = some s') : s'.Inv stream := by
  obtain rfl := Option.some.inj hStep
  refine h.write ?_ h.offset
  intro hLive
  exact h.segments (by simpa using hLive)

theorem DecisionState.Inv.close (h : s.Inv stream)
    (hStep : s.step gkMethod stream .close = some s') : s'.Inv stream := by
  obtain rfl := Option.some.inj hStep
  refine h.write ?_ rfl
  intro hLive
  cases hLive

/-- `check_gk` writes `temp_up` at most. -/
theorem checkGk_writes (gkMethod : Int) (dh : DataHead Gzip) :
    ∃ tempUp, (checkGk gkMethod dh).2 = { dh with tempUp } := by
  rcases checkGk_cases gkMethod dh with ⟨hRun, -⟩ | ⟨-, ⟨-, hRun⟩ | ⟨t, -, -, hRun⟩⟩
  · exact ⟨dh.tempUp, by rw [hRun]⟩
  · exact ⟨some 0, by rw [hRun]⟩
  · exact ⟨dh.tempUp, by rw [hRun]⟩

theorem DecisionState.Inv.checkGk (h : s.Inv stream) {locked : Bool}
    (hStep : s.step gkMethod stream (.checkGk locked) = some s') : s'.Inv stream := by
  simp only [step] at hStep
  split at hStep
  · obtain ⟨tempUp, hHead⟩ : ∃ tempUp,
        (if locked then Stream.checkGk gkMethod s.dh else (false, s.dh)).2 =
          { s.dh with tempUp } := by
      cases locked with
      | false => exact ⟨s.dh.tempUp, rfl⟩
      | true => exact checkGk_writes gkMethod s.dh
    generalize (if locked then Stream.checkGk gkMethod s.dh else (false, s.dh)) = result
      at hStep hHead
    obtain ⟨ret, dh⟩ := result
    obtain rfl : dh = { s.dh with tempUp } := hHead
    obtain rfl := Option.some.inj hStep
    refine ⟨h.segments, h.offset, ?_, h.shown, h.nodup⟩
    intro buffer base hPoll
    cases ret <;> cases hPoll
  · cases hStep

/-- `get_buffer` reads a part of the stream, from the cursor on. -/
theorem DecisionState.Inv.buffer (h : s.Inv stream) {buffer : List UInt8}
    (hBuffer : Stream.getBuffer s.dh = some buffer) : buffer <+: stream.drop s.cursor := by
  unfold Stream.getBuffer at hBuffer
  cases ha : s.dh.aTcp with
  | none => simp [ha] at hBuffer
  | some a =>
    have hStream := h.segments (by rw [ha]; rfl)
    cases ht : s.dh.tempUp with
    | none =>
      simp only [ha, ht, Option.some.injEq] at hBuffer
      rw [← hBuffer]
      exact List.nil_prefix
    | some t =>
      simp only [ha, ht, h.offset, List.drop_zero, Option.some.injEq] at hBuffer
      rw [DecisionState.cursor, ht, h.offset, Option.getD_some, Nat.add_zero, ← hStream,
        List.drop_append_of_le_length (startOf_le _ _), drop_startOf, ← hBuffer]
      exact List.prefix_append _ _

theorem DecisionState.Inv.getBuffer (h : s.Inv stream) {locked : Bool}
    (hOk : s.Ok stream (.getBuffer locked))
    (hStep : s.step gkMethod stream (.getBuffer locked) = some s') : s'.Inv stream := by
  simp only [step] at hStep
  split at hStep
  · obtain rfl := Option.some.inj hStep
    refine ⟨h.segments, h.offset, ?_, ?_, h.nodup⟩
    · intro buffer base hPoll
      obtain ⟨hGot, rfl⟩ := DecisionPoll.got.inj hPoll
      cases locked with
      | false => cases hGot
      | true =>
        have hLive : s.dh.aTcp.isSome := by
          by_contra hNone
          simp [Stream.getBuffer, Option.not_isSome_iff_eq_none.mp hNone] at hGot
        refine ⟨h.buffer hGot, ?_, ?_⟩
        · have hGot' : Stream.getBuffer s.dh = some buffer := hGot
          simp only [if_true, hGot']
          exact List.mem_append_right _ (List.mem_singleton.mpr rfl)
        · intro p hp
          -- a decided request from the cursor on has been shown by an earlier buffer
          by_contra hBehind
          obtain ⟨range, hRange, hShows⟩ := h.shown p hp
          exact hOk rfl hLive range hRange p (Nat.le_of_not_lt hBehind) hShows
    · intro p hp
      obtain ⟨range, hRange, hShows⟩ := h.shown p hp
      exact ⟨range, List.mem_append_left _ hRange, hShows⟩
  · cases hStep

/-- `set_gk` and `update_dh` keep the segments. -/
theorem setGk_writes (method : Int) (dh : DataHead Gzip) :
    (setGk dh method).up = dh.up ∧ (setGk dh method).offsetUp = dh.offsetUp ∧
      (setGk dh method).aTcp.isSome = dh.aTcp.isSome := by
  unfold setGk
  split <;> simp

theorem updateDh_writes (request : List (List UInt8)) (dh : DataHead Gzip) (h : dh.offsetUp = 0) :
    (updateDh dh request).up = dh.up ∧ (updateDh dh request).offsetUp = 0 ∧
      (updateDh dh request).aTcp = dh.aTcp := by
  unfold updateDh
  cases ha : dh.aTcp with
  | none => exact ⟨rfl, h, ha⟩
  | some a => exact ⟨rfl, rfl, rfl⟩

theorem DecisionState.Inv.head (h : s.Inv stream) (gkMethod : Int) (locked isgk : Bool)
    (request : List (List UInt8)) {dh : DataHead Gzip}
    (hHead : dh = if locked then (if isgk then setGk s.dh gkMethod else updateDh s.dh request)
      else s.dh) :
    dh.offsetUp = 0 ∧ (dh.aTcp.isSome → dh.up.flatten ++ s.coming.flatten = stream) := by
  obtain ⟨hUp, hOffset, hLive⟩ := setGk_writes gkMethod s.dh
  obtain ⟨hUp', hOffset', hLive'⟩ := updateDh_writes request s.dh h.offset
  cases locked with
  | false =>
    subst hHead
    exact ⟨h.offset, h.segments⟩
  | true =>
    cases isgk with
    | true =>
      rw [hHead, if_pos rfl, if_pos rfl, hUp, hOffset, hLive]
      exact ⟨h.offset, h.segments⟩
    | false =>
      rw [hHead, if_pos rfl, if_neg Bool.false_ne_true, hUp', hOffset', hLive']
      exact ⟨rfl, h.segments⟩

/-- The end of a poll: the requests passed on in full start in the buffer, and no request that has
been decided does. -/
theorem DecisionState.Inv.finish (h : s.Inv stream) {locked : Bool} {status : List UInt8 → Int}
    (hStep : s.step gkMethod stream (.finish locked status) = some s') : s'.Inv stream := by
  simp only [step] at hStep
  split at hStep
  · rename_i buffer base hPoll
    cases hRequest : requests buffer with
    | none => simp [hRequest] at hStep
    | some request =>
      simp only [hRequest, Option.bind_eq_bind, Option.bind_some, Option.some.injEq] at hStep
      subst hStep
      obtain ⟨hOffset, hStream⟩ := h.head gkMethod locked (inspect status request).2
        request rfl
      refine ⟨hStream, hOffset, ?_, ?_, ?_⟩
      · intro buffer' base' hIdle
        cases hIdle
      · intro p hp
        rcases List.mem_append.mp hp with hOld | hNew
        · exact h.shown p hOld
        · obtain ⟨q, hq, hComplete, rfl⟩ := mem_complete.mp hNew
          cases buffer with
          | none => simp [offsets] at hq
          | some buffer =>
            obtain ⟨hBuffer, hReturned, -⟩ := h.holds buffer base hPoll
            have hZip := mem_zip_of_prefix (inspect_passes status request) hq
            exact ⟨_, hReturned, shows_of_complete hBuffer hRequest hZip hComplete⟩
      · refine List.nodup_append.mpr ⟨h.nodup, ?_, ?_⟩
        · have hSorted := complete_sorted stream base (offsets_sorted buffer)
            (inspect status request).1
          exact hSorted.imp Nat.ne_of_lt
        · intro p hOld p' hNew
          obtain ⟨q, hq, -, rfl⟩ := mem_complete.mp hNew
          cases buffer with
          | none => simp [offsets] at hq
          | some buffer =>
            have hBefore := (h.holds buffer base hPoll).2.2 p hOld
            omega
  · cases hStep

/-- In a run in which no `get_buffer` reads a request again that an earlier buffer has shown, no
request is decided twice. -/
theorem decided_once (gkMethod : Int) (a : TcpStream) (gzip : Gzip) (segments : List Segment)
    {s : DecisionState Gzip}
    (hRun : Reaches (DecisionState.step gkMethod segments.flatten)
      (DecisionState.Ok segments.flatten) (DecisionState.start a gzip segments) s) :
    s.decided.Nodup := by
  have hInv := hRun.invariant (P := DecisionState.Inv segments.flatten)
    (DecisionState.start_inv a gzip segments) fun s e s' h hOk hStep => by
      cases e with
      | request => exact h.request hStep
      | response gkState => exact h.response hStep
      | close => exact h.close hStep
      | checkGk locked => exact h.checkGk hStep
      | getBuffer locked => exact h.getBuffer hOk hStep
      | finish locked status => exact h.finish hStep
  exact hInv.nodup

/-- Two polls that both read the second segment: the first has its request without the end. -/
theorem decided_once_split :
    let segments : List Segment := [ascii ['G', 'E', 'T', ' ', '/', 'a'],
      ascii ['G', 'E', 'T', ' ', '/', 'b'], ascii ['c', 'G', 'E', 'T', ' ', '/', 'd']]
    (⟨⟨some ⟨7, 0⟩, segments, some 2, 0, [], ()⟩, [], .idle, [(0, 12), (6, 19)],
    [0, 6, 13]⟩ :
      DecisionState Unit).decided.Nodup := by
  intro segments
  have hUnseen : ∀ p ≤ 19, 6 ≤ p → ¬Shows segments.flatten (0, 12) p := by
    unfold Shows
    decide +kernel
  have hStart : Reaches (DecisionState.step 1 segments.flatten) (DecisionState.Ok segments.flatten)
      (DecisionState.start ⟨7, 0⟩ () segments)
        (DecisionState.start ⟨7, 0⟩ () segments) := .start
  have hSent := (hStart.step (a := .request) (by rintro ⟨⟩) rfl).step (a := .request)
    (by rintro ⟨⟩) rfl
  have hGot := (hSent.step (a := .checkGk true) (by rintro ⟨⟩) rfl).step (a := .getBuffer true)
    (by rintro - - _ ⟨⟩) rfl
  have hFirst : Reaches (DecisionState.step 1 segments.flatten) (DecisionState.Ok segments.flatten)
      (DecisionState.start ⟨7, 0⟩ () segments)
        ⟨⟨some ⟨7, 0⟩, segments.take 2, some 1, 0, [], ()⟩,
        segments.drop 2, .idle, [(0, 12)], [0]⟩ :=
    hGot.step (a := .finish true fun _ => 0) (by rintro ⟨⟩) rfl
  have hLast := (hFirst.step (a := .request) (by rintro ⟨⟩) rfl).step (a := .checkGk true)
    (by rintro ⟨⟩) rfl
  have hAgain := hLast.step (a := .getBuffer true) (fun _ _ range hRange p hCursor hShows => by
    obtain rfl := List.mem_singleton.mp hRange
    exact hUnseen p (marked_le hShows.2.1) hCursor hShows) rfl
  have hSecond : Reaches (DecisionState.step 1 segments.flatten) (DecisionState.Ok segments.flatten)
      (DecisionState.start ⟨7, 0⟩ () segments)
        ⟨⟨some ⟨7, 0⟩, segments, some 2, 0, [], ()⟩, [],
        .idle, [(0, 12), (6, 19)], [0, 6, 13]⟩ :=
    hAgain.step (a := .finish true fun _ => 0) (by rintro ⟨⟩) rfl
  exact decided_once 1 ⟨7, 0⟩ () segments hSecond

/-- Two requests in two segments, polled one by one: `update_dh` leaves the cursor at the first
segment, since it is the last one, and the second poll passes its request on again. -/
theorem decided_twice :
    ¬∀ (segments : List Segment) (s : DecisionState Unit),
      Reaches (DecisionState.step 1 segments.flatten) (fun _ _ => True)
        (DecisionState.start ⟨7, 0⟩ () segments) s → s.decided.Nodup := by
  intro h
  let segments : List Segment :=
    [ascii ['G', 'E', 'T', ' ', '/', 'a'], ascii ['G', 'E', 'T', ' ', '/', 'b']]
  let poll : List DecisionStep := [.checkGk true, .getBuffer true, .finish true fun _ => 0]
  let run : Option (DecisionState Unit) :=
    (DecisionStep.request :: poll ++ DecisionStep.request :: poll).foldlM
      (DecisionState.step 1 segments.flatten) (DecisionState.start ⟨7, 0⟩ () segments)
  have hTwice : run.map DecisionState.decided = some [0, 0, 6] := by decide +kernel
  obtain ⟨s, hRun, hDecided⟩ := Option.map_eq_some_iff.mp hTwice
  have hNodup := h segments s (Reaches.start.of_foldlM _ hRun)
  rw [hDecided] at hNodup
  exact absurd hNodup (by decide)

end Shutter.Stream
