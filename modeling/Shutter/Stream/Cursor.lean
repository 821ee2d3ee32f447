import Shutter.Stream.Head
import Shutter.Library.Run

/-! The polling cursor on one head.  `check_gk` reads `temp_up` as the last segment that a poll has
read, and `update_dh` writes it as the next one to read when segments have come in since
`get_buffer`.  The two readings agree unless exactly one segment has come in. -/

namespace Shutter.Stream

open Shutter.Library

/-- Where the polling thread is in `process_data_head`.  Behind `get_buffer` it has the buffer, and
`count` is the number of segments that the head had then. -/
inductive Poll where
  | idle
  | checked
  | got (buffer : List UInt8) (count : Nat)

/-- A step of the capture thread or of the polling thread. -/
inductive CursorStep where
  | append (ds : Segment)
  | checkGk
  | getBuffer
  | updateDh

/-- One head and the poll on it, with the ranges of segments that the calls of `get_buffer` have
returned. -/
structure CursorState (Gzip : Type) where
  dh : DataHead Gzip
  poll : Poll
  returned : List (Nat × Nat)

variable {Gzip : Type}

/-- The steps.  A poll runs its three calls in order, and appends come at any time. -/
def CursorState.step (gkMethod : Int) (s : CursorState Gzip) :
    CursorStep → Option (CursorState Gzip)
  | .append ds => some { s with dh := appendUp s.dh ds }
  | .checkGk =>
    match s.poll with
    | .idle =>
      let (ret, dh) := Stream.checkGk gkMethod s.dh
      some { s with dh, poll := if ret then .idle else .checked }
    | _ => none
  | .getBuffer =>
    match s.poll with
    | .checked => do
      let buffer ← Stream.getBuffer s.dh
      some { s with poll := .got buffer s.dh.up.length
                    returned := (s.dh.tempUp.getD s.dh.up.length, s.dh.up.length) :: s.returned }
    | _ => none
  | .updateDh =>
    match s.poll with
    | .got buffer _ => do
      let request ← getRequest buffer
      some { s with dh := Stream.updateDh s.dh request, poll := .idle }
    | _ => none

/-- A head that has just been taken for a stream, without segments. -/
def CursorState.start (a : TcpStream) (gzip : Gzip) : CursorState Gzip where
  dh := ⟨some a, [], none, 0, [], gzip⟩
  poll := .idle
  returned := []

/-- Segment `i` has been part of a buffer. -/
def CursorState.Returned (s : CursorState Gzip) (i : Nat) : Prop :=
  ∃ range ∈ s.returned, range.1 ≤ i ∧ i < range.2

/-- The poll is about to start on a stream with segments that is not blocked, and `check_gk` would
end it. -/
def CursorState.Done (gkMethod : Int) (s : CursorState Gzip) : Prop :=
  s.poll = .idle ∧ (∃ a, s.dh.aTcp = some a ∧ a.gkState ≠ gkMethod) ∧ s.dh.up ≠ [] ∧
    (checkGk gkMethod s.dh).1 = true

/-- Before `update_dh`: one segment has come in since `get_buffer`, and the requests reach into the
last segment that `get_buffer` returned. -/
def CursorState.Overtaken (s : CursorState Gzip) : Prop :=
  ∃ buffer count t request, s.poll = .got buffer count ∧ s.dh.tempUp = some t ∧
    getRequest buffer = some request ∧ s.dh.up.length = count + 1 ∧
    ((s.dh.up.take (count - 1)).drop t).flatten.length < (request.map List.length).sum

/-! ### The cursor stays at or before the first segment not read -/

/-- What holds of the cursor between the steps. -/
def CursorState.Cursor (s : CursorState Gzip) : Prop :=
  match s.poll with
  | .idle => ∃ read ≤ s.dh.up.length, (∀ i < read, s.Returned i) ∧
      ∀ t, s.dh.tempUp = some t → t < s.dh.up.length ∧ t ≤ read ∧
        (t + 1 = s.dh.up.length → read = s.dh.up.length)
  | .checked => ∃ t, s.dh.tempUp = some t ∧ t < s.dh.up.length ∧ ∀ i < t, s.Returned i
  | .got buffer count => ∃ t, s.dh.tempUp = some t ∧ t < count ∧ count ≤ s.dh.up.length ∧
      (∀ i < count, s.Returned i) ∧
      buffer.length = ((s.dh.up.take count).drop t).flatten.length

/-- The invariant: the head is live, its offset is 0, and the segments before the cursor have been
read. -/
structure CursorState.Inv (s : CursorState Gzip) : Prop where
  live : s.dh.aTcp.isSome
  offset : s.dh.offsetUp = 0
  cursor : s.Cursor

theorem CursorState.start_inv (a : TcpStream) (gzip : Gzip) : (CursorState.start a gzip).Inv :=
  ⟨rfl, rfl, 0, Nat.le_refl _, fun _ hi => absurd hi (Nat.not_lt_zero _),
    fun _ ht => nomatch ht⟩

variable {gkMethod : Int} {s s' : CursorState Gzip}

theorem CursorState.Inv.append (h : s.Inv) (ds : Segment)
    (hStep : s.step gkMethod (.append ds) = some s') : s'.Inv := by
  obtain ⟨hLive, hOffset, hCursor⟩ := h
  obtain rfl := Option.some.inj hStep
  refine ⟨hLive, hOffset, ?_⟩
  unfold Cursor at hCursor ⊢
  simp only [appendUp, List.length_append, List.length_singleton]
  cases hPoll : s.poll with
  | idle =>
    rw [hPoll] at hCursor
    obtain ⟨read, hLe, hRead, hTemp⟩ := hCursor
    refine ⟨read, by omega, hRead, fun t ht => ?_⟩
    obtain ⟨hLt, hLe, -⟩ := hTemp t ht
    exact ⟨by omega, hLe, by omega⟩
  | checked =>
    rw [hPoll] at hCursor
    obtain ⟨t, ht, hLt, hRead⟩ := hCursor
    exact ⟨t, ht, by omega, hRead⟩
  | got buffer count =>
    rw [hPoll] at hCursor
    obtain ⟨t, ht, hLt, hLe, hRead, hBuffer⟩ := hCursor
    refine ⟨t, ht, hLt, by omega, hRead, ?_⟩
    rw [List.take_append_of_le_length hLe, hBuffer]

theorem CursorState.Inv.checkGk (h : s.Inv) (hStep : s.step gkMethod .checkGk = some s') :
    s'.Inv := by
  obtain ⟨hLive, hOffset, hCursor⟩ := h
  unfold Cursor at hCursor
  cases hPoll : s.poll with
  | checked => simp [step, hPoll] at hStep
  | got buffer count => simp [step, hPoll] at hStep
  | idle =>
    simp only [hPoll] at hCursor
    obtain ⟨read, hLe, hRead, hTemp⟩ := hCursor
    rcases checkGk_cases gkMethod s.dh with
      ⟨hRun, -⟩ | ⟨hUp, ⟨ht, hRun⟩ | ⟨t, ht, -, hRun⟩⟩ <;>
      simp only [step, hPoll, hRun, Option.some.injEq] at hStep <;> subst hStep
    · exact ⟨hLive, hOffset, read, hLe, hRead, hTemp⟩
    · exact ⟨hLive, hOffset, 0, rfl, List.length_pos_iff.mpr hUp,
        fun i hi => absurd hi (Nat.not_lt_zero i)⟩
    · obtain ⟨hLt, hLe, -⟩ := hTemp t ht
      exact ⟨hLive, hOffset, t, ht, hLt, fun i hi => hRead i (by omega)⟩

theorem CursorState.Inv.getBuffer (h : s.Inv) (hStep : s.step gkMethod .getBuffer = some s') :
    s'.Inv := by
  obtain ⟨hLive, hOffset, hCursor⟩ := h
  obtain ⟨a, ha⟩ := Option.isSome_iff_exists.mp hLive
  unfold Cursor at hCursor
  cases hPoll : s.poll with
  | idle => simp [step, hPoll] at hStep
  | got buffer count => simp [step, hPoll] at hStep
  | checked =>
    simp only [hPoll] at hCursor
    obtain ⟨t, ht, hLt, hRead⟩ := hCursor
    simp only [step, hPoll, Stream.getBuffer, ha, ht, hOffset, Option.bind_eq_bind,
      Option.bind_some, Option.getD_some, Option.some.injEq] at hStep
    subst hStep
    refine ⟨hLive, hOffset, t, ht, hLt, Nat.le_refl _, fun i hi => ?_, by simp⟩
    by_cases hit : i < t
    · obtain ⟨range, hMem, hRange⟩ := hRead i hit
      exact ⟨range, List.mem_cons_of_mem _ hMem, hRange⟩
    · exact ⟨_, List.mem_cons_self, by simp; omega, hi⟩

/-- The requests of the buffer end at or before the last segment that the poll has read, so the
cursor moves past it only when the requests reach into it. -/
theorem CursorState.Inv.updateDh (h : s.Inv) (hNot : ¬s.Overtaken)
    (hStep : s.step gkMethod .updateDh = some s') : s'.Inv := by
  obtain ⟨hLive, hOffset, hCursor⟩ := h
  obtain ⟨a, ha⟩ := Option.isSome_iff_exists.mp hLive
  unfold Cursor at hCursor
  cases hPoll : s.poll with
  | idle => simp [step, hPoll] at hStep
  | checked => simp [step, hPoll] at hStep
  | got buffer count =>
    simp only [hPoll] at hCursor
    obtain ⟨t, ht, hLt, hLe, hRead, hBuffer⟩ := hCursor
    cases hRequest : getRequest buffer with
    | none => simp [step, hPoll, hRequest] at hStep
    | some request =>
      simp only [step, hPoll, hRequest, Stream.updateDh, ha, ht, Option.bind_eq_bind,
        Option.bind_some, Option.some.injEq] at hStep
      subst hStep
      obtain ⟨hPassedLe, hBefore⟩ :=
        passed_spec (request.map List.length).sum 0 (s.dh.up.drop t)
      generalize hPassed : passed (request.map List.length).sum 0 (s.dh.up.drop t) = k at *
      have hLen := getRequest_length_le hRequest
      rw [hBuffer] at hLen
      -- the requests are no longer than the segments that the poll has read
      have hCount : t + k ≤ count := by
        by_contra hGt
        have := hBefore (count - t) (by omega)
        rw [← List.drop_take] at this
        omega
      refine ⟨rfl, rfl, count, hLe, hRead, fun t' ht' => ?_⟩
      simp only at ht' ⊢
      by_cases hNext : t + k < s.dh.up.length
      · rw [if_pos hNext] at ht'
        obtain rfl := Option.some.inj ht'
        refine ⟨hNext, hCount, fun hLast => ?_⟩
        by_contra hLonger
        -- the cursor is on a segment that came in behind the buffer, and it is the last one
        refine hNot ⟨buffer, count, t, request, hPoll, ht, hRequest, by omega, ?_⟩
        have := hBefore (count - 1 - t) (by omega)
        rwa [← List.drop_take, Nat.zero_add] at this
      · rw [if_neg hNext, lastUp, if_neg (List.ne_nil_of_length_pos (by omega))] at ht'
        obtain rfl := Option.some.inj ht'
        exact ⟨by omega, by omega, by omega⟩

theorem CursorState.Inv.step (h : s.Inv) (e : CursorStep)
    (hOk : e = .updateDh → ¬s.Overtaken) (hStep : s.step gkMethod e = some s') : s'.Inv := by
  cases e with
  | append ds => exact h.append ds hStep
  | checkGk => exact h.checkGk hStep
  | getBuffer => exact h.getBuffer hStep
  | updateDh => exact h.updateDh (hOk rfl) hStep

/-- When a poll would end at once, the cursor is on the last segment, and all have been read. -/
theorem CursorState.Inv.done (h : s.Inv) (hDone : s.Done gkMethod) :
    ∀ i < s.dh.up.length, s.Returned i := by
  obtain ⟨hIdle, ⟨a, ha, hBlocked⟩, hUp, hRet⟩ := hDone
  have hCursor := h.cursor
  simp only [Cursor, hIdle] at hCursor
  obtain ⟨read, hLe, hRead, hTemp⟩ := hCursor
  rcases checkGk_cases gkMethod s.dh with
    ⟨-, hNone | ⟨b, hb, hb'⟩ | hNil | ⟨t, ht, hLast⟩⟩ | ⟨-,
      ⟨-, hRun⟩ | ⟨t, -, -, hRun⟩⟩
  · simp [ha] at hNone
  · rw [ha] at hb
    exact absurd (Option.some.inj hb ▸ hb') hBlocked
  · exact absurd hNil hUp
  · exact (hTemp t ht).2.2 hLast ▸ hRead
  · simp [hRun] at hRet
  · simp [hRun] at hRet

/-- No segment is lost in a run in which no `update_dh` is overtaken by exactly one segment. -/
theorem cursor_loses_no_segment (gkMethod : Int) (a : TcpStream) (gzip : Gzip)
    {s : CursorState Gzip}
    (hRun : Reaches (CursorState.step gkMethod) (fun s e => e = .updateDh → ¬s.Overtaken)
      (CursorState.start a gzip) s) (hDone : s.Done gkMethod) :
    ∀ i < s.dh.up.length, s.Returned i :=
  (hRun.invariant (P := CursorState.Inv) (CursorState.start_inv a gzip)
    fun _ e _ h hOk hStep => h.step e hOk hStep).done hDone

/-- Two segments come in between `get_buffer` and `update_dh`, and the next poll reads both. -/
theorem cursor_loses_no_segment_between :
    let request : Segment := ['G', 'E', 'T', ' ', '/', 'a'].map fun c => c.toNat.toUInt8
    let s : CursorState Unit :=
      ⟨⟨some ⟨7, 0⟩, [request, request, request], some 2, 0, [], ()⟩, .idle,
        [(1, 3), (0, 1)]⟩
    ∀ i < s.dh.up.length, s.Returned i := by
  intro request s
  have hStart : Reaches (CursorState.step 1) (fun s e => e = .updateDh → ¬s.Overtaken)
      (CursorState.start ⟨7, 0⟩ ()) (CursorState.start ⟨7, 0⟩ ()) := .start
  have hRead := ((hStart.step (a := .append request) (by simp) rfl).step (a := .checkGk)
    (by simp) rfl).step (a := .getBuffer) (by simp) rfl
  have hMore := (hRead.step (a := .append request) (by simp) rfl).step (a := .append request)
    (by simp) rfl
  have hFirst : Reaches (CursorState.step 1) (fun s e => e = .updateDh → ¬s.Overtaken)
      (CursorState.start ⟨7, 0⟩ ())
      ⟨⟨some ⟨7, 0⟩, [request, request, request], some 1, 0, [], ()⟩, .idle,
        [(0, 1)]⟩ := by
    refine hMore.step (a := .updateDh) ?_ rfl
    rintro - ⟨buffer, count, t, _, hPoll, -, -, hLength, -⟩
    obtain ⟨-, rfl⟩ := Poll.got.inj hPoll
    cases hLength
  have hAgain := (hFirst.step (a := .checkGk) (by simp) rfl).step (a := .getBuffer) (by simp) rfl
  have hSecond : Reaches (CursorState.step 1) (fun s e => e = .updateDh → ¬s.Overtaken)
      (CursorState.start ⟨7, 0⟩ ()) s := by
    refine hAgain.step (a := .updateDh) ?_ rfl
    rintro - ⟨buffer, count, t, _, hPoll, -, -, hLength, -⟩
    obtain ⟨-, rfl⟩ := Poll.got.inj hPoll
    cases hLength
  exact cursor_loses_no_segment 1 ⟨7, 0⟩ () hSecond
    ⟨rfl, ⟨⟨7, 0⟩, rfl, by decide⟩, by simp [s], rfl⟩

/-- A segment that comes in between `get_buffer` and `update_dh` is never read: the cursor is put on
it, and the next `check_gk` takes it for the last segment read. -/
theorem cursor_loses_overtaking_segment :
    ¬∀ s : CursorState Unit,
      Reaches (CursorState.step 1) (fun _ _ => True) (CursorState.start ⟨7, 0⟩ ()) s →
      s.Done 1 → ∀ i < s.dh.up.length, s.Returned i := by
  intro h
  let request : Segment := ['G', 'E', 'T', ' ', '/'].map fun c => c.toNat.toUInt8
  let s : CursorState Unit :=
    ⟨⟨some ⟨7, 0⟩, [request, request], some 1, 0, [], ()⟩, .idle, [(0, 1)]⟩
  have hRun : Reaches (CursorState.step 1) (fun _ _ => True) (CursorState.start ⟨7, 0⟩ ()) s :=
    Reaches.start.of_foldlM [.append request, .checkGk, .getBuffer, .append request, .updateDh] rfl
  obtain ⟨range, hMem, hLe, hLt⟩ :=
    h s hRun ⟨rfl, ⟨⟨7, 0⟩, rfl, by decide⟩, by simp [s], rfl⟩ 1 (by simp [s])
  obtain rfl : range = (0, 1) := by simpa [s] using hMem
  exact absurd hLt (by decide)

end Shutter.Stream
