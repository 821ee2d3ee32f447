import Shutter.Stream.Requests
import Shutter.Library.Run

/-! Whole polls of one head, and the requests that they pass to `processhttp`.  `update_dh` counts
the bytes of the requests only and moves the cursor by whole segments, so a poll can move it past
the start of a request whose end has not come in. -/

namespace Shutter.Stream

open Shutter.Library
open Shutter.Acsm (ascii)

variable {Gzip : Type}

/-- The loop of `process_data_head` over the requests: those passed to `processhttp`, and `isgk`.
`status` is what `get_decision` returns for a request. -/
def inspect (status : List UInt8 → Int) : List (List UInt8) → List (List UInt8) × Bool
  | [] => ([], false)
  | r :: request =>
    if status r = 0 ∨ status r = -1 then
      let (seen, isgk) := inspect status request
      (r :: seen, isgk)
    else ([r], true)

/-- `process_data_head`: the head after it, the requests passed to `processhttp`, and `isgk`. -/
def processDataHead (gkMethod : Int) (status : List UInt8 → Int) (dh : DataHead Gzip) :
    Option (DataHead Gzip × List (List UInt8) × Bool) :=
  let (ret, dh) := checkGk gkMethod dh
  if ret then some (dh, [], false)
  else do
    let request ← match getBuffer dh with
      | none => some []
      | some buffer => getRequest buffer
    let (seen, isgk) := inspect status request
    some (if isgk then setGk dh gkMethod else updateDh dh request, seen, isgk)

/-- One head, the segments of its stream that have yet to come in, and the requests that polls have
passed to `processhttp`. -/
structure PollState (Gzip : Type) where
  dh : DataHead Gzip
  coming : List Segment
  seen : List (List UInt8)

/-- A segment comes in, or the head is polled.  `status` is what `get_decision` returns during the
poll, and a poll that blocks is no step. -/
inductive PollStep where
  | arrive
  | poll (status : List UInt8 → Int)

def PollState.step (gkMethod : Int) (s : PollState Gzip) : PollStep → Option (PollState Gzip)
  | .arrive =>
    match s.coming with
    | [] => none
    | ds :: coming => some { s with dh := appendUp s.dh ds, coming }
  | .poll status => do
    let (dh, seen, isgk) ← processDataHead gkMethod status s.dh
    if isgk then none else some { s with dh, seen := s.seen ++ seen }

/-- A head that has just been taken for a stream that will send the segments. -/
def PollState.start (a : TcpStream) (gzip : Gzip) (segments : List Segment) : PollState Gzip where
  dh := ⟨some a, [], none, 0, [], gzip⟩
  coming := segments
  seen := []

/-- The segments that a poll reads. -/
def PollState.unread (s : PollState Gzip) : List Segment := s.dh.up.drop (s.dh.tempUp.getD 0)

/-- The bytes before segment `j`. -/
def startOf (segments : List Segment) (j : Nat) : Nat := (segments.take j).flatten.length

/-- The last request of the buffer of these segments is not dropped: it ends in the stream where the
buffer ends, or a segment starts at or before its marker that is the last segment or starts no
earlier than there are bytes from the first marker to the end of the buffer. -/
def KeepsLast (segments coming : List Segment) : Prop :=
  ∀ p, Marked (segments.flatten.drop p) → (∀ i > p, ¬Marked (segments.flatten.drop i)) →
    requestFrom (segments.flatten.drop p ++ coming.flatten) = segments.flatten.drop p ∨
    ∃ j < segments.length, startOf segments j ≤ p ∧
      (j + 1 = segments.length ∨
        segments.flatten.length ≤ (upToMarker segments.flatten).length + startOf segments j)

/-- What a poll that reads these segments needs: `get_ReN` is not cut short and its arrays suffice,
and the last request is not dropped. -/
structure Sound (segments coming : List Segment) : Prop where
  scan : ¬CutShort segments.flatten
  arrays : (requestsOf segments.flatten).length < 100
  keeps : KeepsLast segments coming

/-- The condition on a step: a poll that reads a buffer reads a sound one. -/
def PollState.Ok (gkMethod : Int) (s : PollState Gzip) (e : PollStep) : Prop :=
  (∃ status, e = .poll status) → (checkGk gkMethod s.dh).1 = false → Sound s.unread s.coming

/-! ### The cursor in bytes -/

/-- Where the cursor is in the stream. -/
def PollState.cursor (s : PollState Gzip) : Nat := startOf s.dh.up (s.dh.tempUp.getD 0)

theorem drop_startOf (segments : List Segment) (j : Nat) :
    segments.flatten.drop (startOf segments j) = (segments.drop j).flatten := by
  conv_lhs => rw [← List.take_append_drop j segments, List.flatten_append]
  simp [startOf]

theorem startOf_mono (segments : List Segment) {i j : Nat} (h : i ≤ j) :
    startOf segments i ≤ startOf segments j := by
  unfold startOf
  rw [← Nat.add_sub_cancel' h, List.take_add, List.flatten_append, List.length_append]
  exact Nat.le_add_right _ _

theorem startOf_le (segments : List Segment) (j : Nat) :
    startOf segments j ≤ segments.flatten.length := by
  conv_rhs => rw [← List.take_append_drop j segments, List.flatten_append, List.length_append]
  exact Nat.le_add_right _ _

theorem startOf_add (segments : List Segment) (t j : Nat) :
    startOf segments (t + j) = startOf segments t + startOf (segments.drop t) j := by
  simp [startOf, List.take_add]

/-- `update_dh` moves the cursor forward, and not past a segment that is the last one or starts
behind the counted bytes. -/
theorem updateDh_tempUp {dh : DataHead Gzip} {a : TcpStream} {t : Nat} (ha : dh.aTcp = some a)
    (ht : dh.tempUp = some t) (hLt : t < dh.up.length) (request : List (List UInt8)) :
    ∃ t', updateDh dh request = { dh with tempUp := some t', offsetUp := 0 } ∧ t ≤ t' ∧
      t' < dh.up.length ∧
      (∀ j < (dh.up.drop t).length, j + 1 = (dh.up.drop t).length ∨
        (request.map List.length).sum ≤ startOf (dh.up.drop t) j → t' ≤ t + j) ∧
      ((request.map List.length).sum = 0 → t' = t) := by
  obtain ⟨hLe, hBefore⟩ := passed_spec (request.map List.length).sum 0 (dh.up.drop t)
  unfold updateDh
  simp only [ha, ht, Option.bind_some]
  generalize passed (request.map List.length).sum 0 (dh.up.drop t) = k at hLe hBefore ⊢
  have hPassed : ∀ j, (request.map List.length).sum ≤ startOf (dh.up.drop t) j → k ≤ j := by
    intro j hj
    by_contra hGt
    have := hBefore j (by omega)
    unfold startOf at hj
    omega
  have hZero : (request.map List.length).sum = 0 → k = 0 := fun h0 =>
    Nat.le_zero.mp (hPassed 0 (by omega))
  rw [List.length_drop] at hLe ⊢
  by_cases hNext : t + k < dh.up.length
  · refine ⟨t + k, by simp [hNext], by omega, hNext, fun j hj hEnd => ?_, fun h0 => ?_⟩
    · rcases hEnd with hEnd | hEnd
      · omega
      · have := hPassed j hEnd
        omega
    · have := hZero h0
      omega
  · have hNonempty : dh.up ≠ [] := List.ne_nil_of_length_pos (by omega)
    refine ⟨dh.up.length - 1, by simp [hNext, lastUp, hNonempty], by omega, by omega,
      fun j hj hEnd => ?_, fun h0 => ?_⟩
    · rcases hEnd with hEnd | hEnd
      · omega
      · have := hPassed j hEnd
        omega
    · have := hZero h0
      omega

theorem inspect_of_not_isgk {status : List UInt8 → Int} {request seen : List (List UInt8)}
    (h : inspect status request = (seen, false)) : seen = request := by
  induction request generalizing seen with
  | nil => exact (Prod.mk.inj h).1.symm
  | cons r request ih =>
    unfold inspect at h
    split at h
    · obtain ⟨rfl, hIsgk⟩ := Prod.mk.inj h
      have hRest : inspect status request = ((inspect status request).1, false) :=
        Prod.ext rfl hIsgk
      exact congrArg (r :: ·) (ih hRest)
    · simp at h

/-! ### The invariant -/

/-- What holds of a run of arrivals and sound polls on the stream `t`: the requests whose markers
are before the cursor have been passed on, and when the cursor is on the last segment so have the
requests from it on, as far as they have come in. -/
structure PollState.Inv (gkMethod : Int) (t : List UInt8) (s : PollState Gzip) : Prop where
  stream : s.dh.up.flatten ++ s.coming.flatten = t
  live : ∃ a, s.dh.aTcp = some a ∧ a.gkState ≠ gkMethod
  offset : s.dh.offsetUp = 0
  inRange : ∀ i, s.dh.tempUp = some i → i < s.dh.up.length
  before : ∀ p < s.cursor, Marked (t.drop p) → requestFrom (t.drop p) ∈ s.seen
  last : ∀ i, s.dh.tempUp = some i → i + 1 = s.dh.up.length →
    ∀ r ∈ requestsOf s.unread.flatten, r ∈ s.seen

variable {gkMethod : Int} {t : List UInt8} {s s' : PollState Gzip}

theorem PollState.start_inv (a : TcpStream) (ha : a.gkState ≠ gkMethod) (gzip : Gzip)
    (segments : List Segment) :
    (PollState.start a gzip segments).Inv gkMethod segments.flatten where
  stream := rfl
  live := ⟨a, rfl, ha⟩
  offset := rfl
  inRange _ hi := nomatch hi
  before _ hp := absurd hp (Nat.not_lt_zero _)
  last _ hi := nomatch hi

theorem PollState.Inv.arrive (h : s.Inv gkMethod t)
    (hStep : s.step gkMethod .arrive = some s') : s'.Inv gkMethod t := by
  obtain ⟨hStream, hLive, hOffset, hRange, hBefore, -⟩ := h
  cases hComing : s.coming with
  | nil => simp [PollState.step, hComing] at hStep
  | cons ds coming =>
    simp only [PollState.step, hComing, Option.some.injEq] at hStep
    subst hStep
    refine ⟨by simpa [appendUp, hComing] using hStream, hLive, hOffset, fun i hi => ?_,
      fun p hp => hBefore p ?_, fun i hi hLast => ?_⟩
    · have := hRange i hi
      simp only [appendUp, List.length_append, List.length_singleton]
      omega
    · have hLe : s.dh.tempUp.getD 0 ≤ s.dh.up.length := by
        cases hTemp : s.dh.tempUp with
        | none => exact Nat.zero_le _
        | some i => exact Nat.le_of_lt (hRange i hTemp)
      simpa [PollState.cursor, appendUp, startOf, List.take_append_of_le_length hLe] using hp
    · have := hRange i hi
      simp only [appendUp, List.length_append, List.length_singleton] at hLast
      omega

/-- The requests that start before the new cursor of a sound poll are passed on in full. -/
theorem KeepsLast.request_mem {segments coming : List Segment} (h : KeepsLast segments coming)
    {c : Nat} (hLe : c ≤ segments.flatten.length)
    (hCursor : ∀ j < segments.length, (j + 1 = segments.length ∨
      ((requestsOf segments.flatten).map List.length).sum ≤ startOf segments j) →
        c ≤ startOf segments j)
    (hNone : ((requestsOf segments.flatten).map List.length).sum = 0 → c = 0)
    {p : Nat} (hp : p < c) (hMarked : Marked ((segments.flatten ++ coming.flatten).drop p)) :
    requestFrom ((segments.flatten ++ coming.flatten).drop p) ∈ requestsOf segments.flatten := by
  have hLength := requestsOf_length segments.flatten
  have hDrop : (segments.flatten ++ coming.flatten).drop p =
      segments.flatten.drop p ++ coming.flatten := List.drop_append_of_le_length (by omega)
  rw [hDrop] at hMarked ⊢
  have hSome : ¬Unmarked segments.flatten := fun hUnmarked => by
    have := hNone (by rw [requestsOf_of_unmarked hUnmarked]; rfl)
    omega
  obtain ⟨q, hq, hLast⟩ := exists_last_marker hSome
  by_cases hpq : p < q
  · -- another marker of the buffer ends the request
    have hNext : Marked ((segments.flatten.drop p).drop (q - p)) := by
      rwa [List.drop_drop, Nat.add_sub_cancel' (Nat.le_of_lt hpq)]
    by_cases hFull : Marked (segments.flatten.drop p)
    · rw [requestFrom_append (by omega) hNext]
      exact mem_requestsOf.mpr ⟨p, hFull, rfl⟩
    · exact absurd hNext (marked_append hFull hMarked (q - p))
  · rcases h q hq hLast with hEnds | ⟨j, hj, hStart, hEnd⟩
    · by_cases hFull : Marked (segments.flatten.drop p)
      · obtain rfl : p = q := by
          by_contra hNe
          exact hLast p (by omega) hFull
        rw [hEnds, ← requestFrom_of_last hLast]
        exact mem_requestsOf.mpr ⟨p, hFull, rfl⟩
      · -- the marker is not complete in the buffer, but it ends the last request before it
        have hLater : Marked ((segments.flatten.drop q ++ coming.flatten).drop (p - q)) := by
          rw [List.drop_append_of_le_length (by rw [List.length_drop]; omega), List.drop_drop,
            Nat.add_sub_cancel' (by omega)]
          exact hMarked
        have hShort := requestFrom_length_le _ (by
          by_contra hZero
          exact hFull (by rwa [show p = q by omega])) hLater
        rw [hEnds, List.length_drop] at hShort
        omega
    · have := hCursor j hj (hEnd.imp_right fun hLe => by omega)
      omega

/-- The poll from `s` to `s'` reads the segments from `i` on, passes on their requests, and moves
the cursor to segment `i'`. -/
structure PollState.Reads (s s' : PollState Gzip) (i i' : Nat) : Prop where
  start : s.dh.tempUp.getD 0 = i
  inRange : i < s.dh.up.length
  unfinished : s.dh.tempUp = none ∨ i + 1 ≠ s.dh.up.length
  sound : Sound s.unread s.coming
  forward : i ≤ i'
  inRange' : i' < s.dh.up.length
  result : s' = { s with dh := { s.dh with tempUp := some i', offsetUp := 0 },
                         seen := s.seen ++ requestsOf s.unread.flatten }
  cursor : ∀ j < s.unread.length, (j + 1 = s.unread.length ∨
    ((requestsOf s.unread.flatten).map List.length).sum ≤ startOf s.unread j) → i' ≤ i + j
  noRequest : ((requestsOf s.unread.flatten).map List.length).sum = 0 → i' = i

/-- A sound poll ends at `check_gk` and changes nothing, or reads the unread segments. -/
theorem PollState.Inv.poll_cases (h : s.Inv gkMethod t) (hNul : 0 ∉ t)
    {status : List UInt8 → Int} (hOk : s.Ok gkMethod (.poll status))
    (hStep : s.step gkMethod (.poll status) = some s') :
    (checkGk gkMethod s.dh = (true, s.dh) ∧ s' = s) ∨ ∃ i i', s.Reads s' i i' := by
  obtain ⟨a, ha, hBlocked⟩ := h.live
  rcases checkGk_cases gkMethod s.dh with ⟨hRun, -⟩ | ⟨hUp, hCheck⟩
  · refine Or.inl ⟨hRun, ?_⟩
    simp only [PollState.step, processDataHead, hRun, if_true, Option.bind_eq_bind,
      Option.bind_some, Bool.false_eq_true, if_false, List.append_nil, Option.some.injEq] at hStep
    exact hStep.symm
  · right
    -- the cursor that the poll reads from
    obtain ⟨i, hi, hLt, hTemp, dh, hDh, hRun⟩ : ∃ i, s.dh.tempUp.getD 0 = i ∧
        i < s.dh.up.length ∧ (s.dh.tempUp = none ∨ i + 1 ≠ s.dh.up.length) ∧
        ∃ dh, dh = { s.dh with tempUp := some i } ∧ checkGk gkMethod s.dh = (false, dh) := by
      rcases hCheck with ⟨hNone, hRun⟩ | ⟨i, hi, hNotLast, hRun⟩
      · exact ⟨0, by rw [hNone]; rfl, List.length_pos_iff.mpr hUp, Or.inl hNone, _, rfl, hRun⟩
      · exact ⟨i, by rw [hi]; rfl, h.inRange i hi, Or.inr hNotLast, s.dh, by rw [← hi], hRun⟩
    have hSound := hOk ⟨status, rfl⟩ (by rw [hRun])
    have hUnread : s.unread = s.dh.up.drop i := by rw [PollState.unread, hi]
    have hNulBuffer : 0 ∉ s.unread.flatten := fun h0 => by
      obtain ⟨ds, hds, h0⟩ := List.mem_flatten.mp h0
      exact hNul (h.stream ▸ List.mem_append_left _
        (List.mem_flatten.mpr ⟨ds, List.mem_of_mem_drop hds, h0⟩))
    have hBuffer : getBuffer dh = some s.unread.flatten := by
      rw [hDh, hUnread]
      simp [getBuffer, ha, h.offset]
    have hRequest := getRequest_eq hNulBuffer hSound.scan hSound.arrays
    obtain ⟨i', hUpdate, hLe, hLt', hCursor, hNone⟩ :=
      updateDh_tempUp (show dh.aTcp = some a by rw [hDh]; exact ha)
        (show dh.tempUp = some i by rw [hDh]) (by rw [hDh]; exact hLt) (requestsOf s.unread.flatten)
    have hUp' : dh.up = s.dh.up := by rw [hDh]
    rw [hUp', ← hUnread] at hCursor
    refine ⟨i, i', hi, hLt, hTemp, hSound, hLe, hUp' ▸ hLt', ?_, hCursor, hNone⟩
    simp only [PollState.step, processDataHead, hRun, Bool.false_eq_true, if_false, hBuffer,
      hRequest, Option.bind_eq_bind, Option.bind_some] at hStep
    cases hInspect : inspect status (requestsOf s.unread.flatten) with
    | mk seen isgk =>
      cases isgk with
      | true => simp [hInspect] at hStep
      | false =>
        obtain rfl := inspect_of_not_isgk hInspect
        simp only [hInspect, Bool.false_eq_true, if_false, hUpdate, Option.some.injEq] at hStep
        rw [← hStep, hDh]

theorem PollState.Inv.poll (h : s.Inv gkMethod t) (hNul : 0 ∉ t) {status : List UInt8 → Int}
    (hOk : s.Ok gkMethod (.poll status)) (hStep : s.step gkMethod (.poll status) = some s') :
    s'.Inv gkMethod t := by
  rcases h.poll_cases hNul hOk hStep with ⟨-, rfl⟩ | ⟨i, i', hReads⟩
  · exact h
  · obtain ⟨hi, hLt, -, hSound, hLe, hLt', rfl, hCursor, hNone⟩ := hReads
    have hUnread : s.unread = s.dh.up.drop i := by rw [PollState.unread, hi]
    have hBuffer : s.unread.flatten ++ s.coming.flatten = t.drop (startOf s.dh.up i) := by
      rw [hUnread, ← drop_startOf, ← h.stream, List.drop_append_of_le_length (startOf_le _ _)]
    have hMoved : startOf s.dh.up i' = startOf s.dh.up i + startOf s.unread (i' - i) := by
      rw [hUnread, ← startOf_add, Nat.add_sub_cancel' hLe]
    refine ⟨h.stream, h.live, rfl, fun j hj => Option.some.inj hj ▸ hLt',
      fun p hp hMarked => ?_, fun j hj _ r hr => ?_⟩
    · by_cases hOld : p < s.cursor
      · exact List.mem_append_left _ (h.before p hOld hMarked)
      · refine List.mem_append_right _ ?_
        rw [PollState.cursor, hi] at hOld
        simp only [PollState.cursor, Option.getD_some, hMoved] at hp
        have hDrop : t.drop p =
            (s.unread.flatten ++ s.coming.flatten).drop (p - startOf s.dh.up i) := by
          rw [hBuffer, List.drop_drop, Nat.add_sub_cancel' (by omega)]
        rw [hDrop] at hMarked ⊢
        refine hSound.keeps.request_mem (startOf_le _ (i' - i)) (fun j hj hEnd => ?_) (fun h0 => ?_)
          (by omega) hMarked
        · have := hCursor j hj hEnd
          exact startOf_mono _ (by omega)
        · rw [hNone h0, Nat.sub_self]
          rfl
    · obtain rfl := Option.some.inj hj
      refine List.mem_append_right _ (mem_requestsOf_of_drop (n := startOf s.unread (i' - i)) ?_)
      rwa [drop_startOf, hUnread, List.drop_drop, Nat.add_sub_cancel' hLe]

/-- Once the stream has come in, a sound poll leaves no request unseen. -/
theorem PollState.Inv.settled (h : s.Inv gkMethod t) (hNul : 0 ∉ t) {status : List UInt8 → Int}
    (hOk : s.Ok gkMethod (.poll status)) (hStep : s.step gkMethod (.poll status) = some s')
    (hComing : s.coming = []) : ∀ r ∈ requestsOf t, r ∈ s'.seen := by
  intro r hr
  have hStream := h.stream
  rw [hComing, List.flatten_nil, List.append_nil] at hStream
  obtain ⟨p, hMarked, rfl⟩ := mem_requestsOf.mp hr
  have hUnread : s.unread.flatten = t.drop s.cursor := by
    rw [PollState.unread, PollState.cursor, ← drop_startOf, hStream]
  have hMem : s.cursor ≤ p → requestFrom (t.drop p) ∈ requestsOf s.unread.flatten :=
    fun hLe => by
    rw [hUnread]
    refine mem_requestsOf.mpr ⟨p - s.cursor, ?_⟩
    rw [List.drop_drop, Nat.add_sub_cancel' hLe]
    exact ⟨hMarked, rfl⟩
  rcases h.poll_cases hNul hOk hStep with ⟨hRun, rfl⟩ | ⟨i, i', hReads⟩
  · by_cases hOld : p < s'.cursor
    · exact h.before p hOld hMarked
    · -- `check_gk` ends the poll of an open stream only when the cursor is on the last segment
      obtain ⟨a, ha, hBlocked⟩ := h.live
      rcases checkGk_cases gkMethod s'.dh with
        ⟨-, hNone | ⟨b, hb, hb'⟩ | hNil | ⟨i, hi, hLast⟩⟩ | ⟨-,
          ⟨-, h'⟩ | ⟨_, -, -, h'⟩⟩
      · simp [ha] at hNone
      · rw [ha] at hb
        exact absurd (Option.some.inj hb ▸ hb') hBlocked
      · rw [← hStream, hNil] at hMarked
        simp at hMarked
      · exact h.last i hi hLast _ (hMem (by omega))
      · simp [h'] at hRun
      · simp [h'] at hRun
  · rw [hReads.result]
    by_cases hOld : p < s.cursor
    · exact List.mem_append_left _ (h.before p hOld hMarked)
    · exact List.mem_append_right _ (hMem (by omega))

/-- In a run of arrivals and polls on one stream in which every poll is sound, each poll that comes
when the stream has come in leaves every request of the stream passed to `processhttp` in full. -/
theorem polls_see_every_request (gkMethod : Int) (a : TcpStream) (ha : a.gkState ≠ gkMethod)
    (gzip : Gzip) (segments : List Segment) (hNul : 0 ∉ segments.flatten) {s s' : PollState Gzip}
    (hRun : Reaches (PollState.step gkMethod) (PollState.Ok gkMethod)
      (PollState.start a gzip segments) s) {status : List UInt8 → Int}
    (hOk : s.Ok gkMethod (.poll status)) (hStep : s.step gkMethod (.poll status) = some s')
    (hComing : s.coming = []) : ∀ r ∈ requestsOf segments.flatten, r ∈ s'.seen := by
  have hInv := hRun.invariant (P := PollState.Inv gkMethod segments.flatten)
    (PollState.start_inv a ha gzip segments) fun s e s' h hOk hStep => by
      cases e with
      | arrive => exact h.arrive hStep
      | poll status => exact h.poll hNul hOk hStep
  exact hInv.settled hNul hOk hStep hComing

/-- A request in two segments that are polled together. -/
theorem polls_see_every_request_together :
    ∃ s' : PollState Unit, PollState.step 1 ⟨⟨some ⟨7, 0⟩,
        [ascii ['G', 'E', 'T', ' ', '/', 'a'], ascii ['b']], none, 0, [], ()⟩, [], []⟩
        (.poll fun _ => 0) = some s' ∧
      ∀ r ∈ requestsOf (ascii ['G', 'E', 'T', ' ', '/', 'a', 'b']), r ∈ s'.seen := by
  let segments : List Segment := [ascii ['G', 'E', 'T', ' ', '/', 'a'], ascii ['b']]
  let s : PollState Unit := ⟨⟨some ⟨7, 0⟩, segments, none, 0, [], ()⟩, [], []⟩
  have hRun : Reaches (PollState.step 1) (PollState.Ok 1)
    (PollState.start ⟨7, 0⟩ () segments) s :=
    (Reaches.start.step (a := .arrive) (by rintro ⟨_, h⟩; cases h) rfl).step (a := .arrive)
      (by rintro ⟨_, h⟩; cases h) rfl
  have hOk : s.Ok 1 (.poll fun _ => 0) := fun _ _ => by
    refine ⟨?_, by decide, fun p _ hLast => Or.inl ?_⟩
    · rintro ⟨b, so, eo, -, hSome, -, hMore⟩
      have hOne : ∀ b ∈ List.range 7, (regexec (s.unread.flatten.drop b)).all
          fun r => (regexec (s.unread.flatten.drop (b + r.2))).isNone := by decide
      by_cases hb : b < 7
      · have := hOne b (List.mem_range.mpr hb)
        rw [hSome] at this
        exact hMore (by simpa using this)
      · have hEmpty : s.unread.flatten.drop b = [] :=
          List.drop_eq_nil_of_le (Nat.le_of_not_lt hb)
        simp [hEmpty, regexec] at hSome
    · rw [List.flatten_nil, List.append_nil]
      exact requestFrom_of_last hLast
  exact ⟨_, rfl,
    polls_see_every_request 1 ⟨7, 0⟩ (by decide) () segments (by decide) hRun hOk rfl rfl⟩

/-- A request in three segments that are polled one by one is never seen in full: the second poll
moves the cursor past its marker, and no later poll changes anything. -/
theorem polls_drop_request :
    ¬∀ (segments : List Segment) (s s' : PollState Unit) (status : List UInt8 → Int),
      0 ∉ segments.flatten → Reaches (PollState.step 1) (fun _ _ => True)
        (PollState.start ⟨7, 0⟩ () segments) s →
      s.step 1 (.poll status) = some s' → s.coming = [] → s'.dh = s.dh →
      ∀ r ∈ requestsOf segments.flatten, r ∈ s'.seen := by
  intro h
  let segments : List Segment := [ascii ['G', 'E', 'T', ' ', '/'], ascii ['a'], ascii ['b']]
  let s : PollState Unit := ⟨⟨some ⟨7, 0⟩, segments, some 1, 0, [], ()⟩, [],
    [ascii ['G', 'E', 'T', ' ', '/'], ascii ['G', 'E', 'T', ' ', '/', 'a']]⟩
  have hRun : Reaches (PollState.step 1) (fun _ _ => True)
    (PollState.start ⟨7, 0⟩ () segments) s :=
    Reaches.start.of_foldlM [.arrive, .poll fun _ => 0, .arrive, .poll fun _ => 0, .arrive] rfl
  have hSeen := h segments s s (fun _ => 0) (by decide) hRun rfl rfl rfl
    (ascii ['G', 'E', 'T', ' ', '/', 'a', 'b']) (by decide)
  exact absurd hSeen (by decide)

end Shutter.Stream
