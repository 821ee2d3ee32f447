import Shutter.Stream.Head
import Shutter.Library.Run

/-! One bucket of the stream cache, and a poll of one of its heads.  The poll holds the lock for
each of its calls only, and a head that the capture thread frees can be taken for another stream
before the poll acts on what it has read. -/

namespace Shutter.Stream

open Shutter.Library

/-- What `insert_new_data_segment` does to the part of a head that belongs to
`process_gzip_data`: the zeros of a new head, the resets of a head that is used again, the buffers
that the last branch allocates, and the call itself, which reads the down-stream segments and can
write `gk_state`. -/
structure GzipCode (Gzip : Type) where
  zero : Gzip
  reuse : Gzip → Gzip
  allocate : Gzip → Gzip
  process : List Segment → Gzip → Int → Gzip × Int

variable {Gzip : Type} (code : GzipCode Gzip)

/-- `process_gzip_data`. -/
def processGzipData (dh : DataHead Gzip) : DataHead Gzip :=
  match dh.aTcp with
  | none => dh
  | some a =>
    if dh.down = [] then dh
    else
      let (gzip, gkState) := code.process dh.down dh.gzip a.gkState
      { dh with gzip, aTcp := some { a with gkState } }

/-- The stream that a head holds. -/
def DataHead.stream (dh : DataHead Gzip) : Option Nat := dh.aTcp.map TcpStream.id

/-- The loop of `find_stream`, from the head at index `i`: the index where it stops, and
`p_null`. -/
def findLoop (id : Nat) : List (DataHead Gzip) → Nat → Option Nat → Nat × Option Nat
  | [], i, pNull => (i, pNull)
  | [_], i, pNull => (i, pNull)
  | dh :: rest, i, pNull =>
    if dh.stream = some id then (i, pNull)
    else findLoop id rest (i + 1) (if dh.aTcp.isNone then some i else pNull)

/-- `find_stream`: the index of the head that holds the stream, or of one to use for it. -/
def findStream (id : Nat) (chain : List (DataHead Gzip)) : Nat :=
  let (i, pNull) := findLoop id chain 0 none
  if (chain[i]?.bind DataHead.stream) = some id then i else pNull.getD i

/-- The segment that arrives goes to one of the two lists of the head, and a down-stream segment is
processed. -/
def receive (dh : DataHead Gzip) (ds : Segment) (fromClient : Bool) : DataHead Gzip :=
  if fromClient then appendUp dh ds
  else processGzipData code { dh with down := dh.down ++ [ds] }

/-- The branch of `insert_new_data_segment` that takes a free head for the stream. -/
def reuseHead (dh : DataHead Gzip) (a : TcpStream) (ds : Segment) (fromClient : Bool) :
    DataHead Gzip :=
  let dh := { dh with gzip := code.reuse dh.gzip, tempUp := none, offsetUp := 0, aTcp := some a }
  if fromClient then { dh with up := [ds] } else processGzipData code { dh with down := [ds] }

/-- The head that the last branch of `insert_new_data_segment` makes. -/
def newHead (a : TcpStream) (ds : Segment) (fromClient : Bool) : DataHead Gzip where
  aTcp := some a
  up := if fromClient then [ds] else []
  tempUp := none
  offsetUp := 0
  down := if fromClient then [] else [ds]
  gzip := code.zero

/-- `insert_new_data_segment`.  The last branch allocates and processes the head before the new
one. -/
def insertNewDataSegment (chain : List (DataHead Gzip)) (a : TcpStream) (ds : Segment)
    (fromClient : Bool) : Option (List (DataHead Gzip)) := do
  let i := findStream a.id chain
  let dh ← chain[i]?
  if dh.stream = some a.id then some (chain.set i (receive code dh ds fromClient))
  else if dh.aTcp.isNone then some (chain.set i (reuseHead code dh a ds fromClient))
  else
    let dh := { dh with gzip := code.allocate dh.gzip }
    let dh := if fromClient then dh else processGzipData code dh
    some (chain.set i dh ++ [newHead code a ds fromClient])

/-- `free_data_stream`.  It leaves `temp_up` as it is. -/
def freeDataStream (chain : List (DataHead Gzip)) (id : Nat) : List (DataHead Gzip) :=
  let i := findStream id chain
  match chain[i]? with
  | none => chain
  | some dh =>
    if dh.stream = some id then
      chain.set i { dh with aTcp := none, up := [], offsetUp := 0, down := [] }
    else chain

/-! ### The poll of one head -/

/-- Where the poll is.  Behind `get_buffer` it has the buffer, and `inspected` is the stream whose
bytes these are. -/
inductive BucketPoll where
  | idle
  | checked
  | got (buffer : Option (List UInt8)) (inspected : Option Nat)

/-- A step of the capture thread, or of the poll.  The verdict on the requests is open. -/
inductive BucketStep where
  | insert (a : TcpStream) (ds : Segment) (fromClient : Bool)
  | free (id : Nat)
  | checkGk
  | getBuffer
  | setGk
  | updateDh

/-- The chain of heads of a bucket, and the poll of one of them. -/
structure BucketState (Gzip : Type) where
  chain : List (DataHead Gzip)
  poll : BucketPoll

/-- The stream of the head at index `k`. -/
def BucketState.streamAt (s : BucketState Gzip) (k : Nat) : Option Nat :=
  s.chain[k]?.bind DataHead.stream

/-- The requests that the poll has cut from its buffer. -/
def requests : Option (List UInt8) → Option (List (List UInt8))
  | none => some []
  | some buffer => getRequest buffer

/-- The steps, for a poll of the head at index `k`.  `set_gk` needs a request to be called for, and
`update_dh` is called when none was blocked. -/
def BucketState.step (gkMethod : Int) (k : Nat) (s : BucketState Gzip) :
    BucketStep → Option (BucketState Gzip)
  | .insert a ds fromClient => do
    let chain ← insertNewDataSegment code s.chain a ds fromClient
    some { s with chain }
  | .free id => some { s with chain := freeDataStream s.chain id }
  | .checkGk =>
    match s.poll with
    | .idle => do
      let (ret, dh) := Stream.checkGk gkMethod (← s.chain[k]?)
      some { chain := s.chain.set k dh, poll := if ret then .idle else .checked }
    | _ => none
  | .getBuffer =>
    match s.poll with
    | .checked => do
      let dh ← s.chain[k]?
      some { s with poll := .got (Stream.getBuffer dh) dh.stream }
    | _ => none
  | .setGk =>
    match s.poll with
    | .got buffer _ => do
      let dh ← s.chain[k]?
      match ← requests buffer with
      | [] => none
      | _ :: _ => some { chain := s.chain.set k (Stream.setGk dh gkMethod), poll := .idle }
    | _ => none
  | .updateDh =>
    match s.poll with
    | .got buffer _ => do
      let dh ← s.chain[k]?
      let request ← requests buffer
      some { chain := s.chain.set k (Stream.updateDh dh request), poll := .idle }
    | _ => none

/-- The poll acts on the stream that it has inspected: a step that marks a stream or moves a cursor
finds it in the head. -/
def BucketState.ActsOnInspected (gkMethod : Int) (k : Nat) (s : BucketState Gzip) : Prop :=
  ∀ e s', e = .setGk ∨ e = .updateDh → s.step code gkMethod k e = some s' →
    ∀ id, s.streamAt k = some id → ∃ buffer, s.poll = .got buffer (some id)

/-- The step takes the polled head, which is free, for another stream, between `get_buffer` and the
end of the poll. -/
def BucketState.Reuses (k : Nat) (s : BucketState Gzip) (e : BucketStep) : Prop :=
  ∃ buffer inspected a ds fromClient, s.poll = .got buffer inspected ∧
    e = .insert a ds fromClient ∧ findStream a.id s.chain = k ∧ s.streamAt k = none

/-! ### The stream of a head -/

@[simp] theorem processGzipData_stream (dh : DataHead Gzip) :
    (processGzipData code dh).stream = dh.stream := by
  unfold processGzipData DataHead.stream
  split
  · rfl
  · rename_i a ha
    split
    · rfl
    · simp [ha]

@[simp] theorem receive_stream (dh : DataHead Gzip) (ds : Segment) (fromClient : Bool) :
    (receive code dh ds fromClient).stream = dh.stream := by
  unfold receive
  split
  · rfl
  · rw [processGzipData_stream]
    rfl

/-- A write of one head that keeps its stream keeps the streams of all heads. -/
theorem set_stream {chain : List (DataHead Gzip)} {i : Nat} {dh dh' : DataHead Gzip}
    (hGet : chain[i]? = some dh) (hStream : dh'.stream = dh.stream) (k : Nat) :
    ((chain.set i dh')[k]?).bind DataHead.stream = chain[k]?.bind DataHead.stream := by
  by_cases hik : i = k
  · subst hik
    rw [List.getElem?_set_self (List.getElem?_eq_some_iff.mp hGet).1, hGet]
    exact hStream
  · rw [List.getElem?_set_ne hik]

/-- A segment leaves the streams of the heads as they are, or takes a free head. -/
theorem insertNewDataSegment_stream {chain chain' : List (DataHead Gzip)} {a : TcpStream}
    {ds : Segment} {fromClient : Bool}
    (h : insertNewDataSegment code chain a ds fromClient = some chain') {k : Nat}
    (hk : k < chain.length) :
    k < chain'.length ∧ (chain'[k]?.bind DataHead.stream = chain[k]?.bind DataHead.stream ∨
      findStream a.id chain = k ∧ chain[k]?.bind DataHead.stream = none) := by
  unfold insertNewDataSegment at h
  cases hGet : chain[findStream a.id chain]? with
  | none => simp [hGet] at h
  | some dh =>
    simp only [hGet, Option.bind_eq_bind, Option.bind_some] at h
    split at h
    · obtain rfl := Option.some.inj h
      exact ⟨by simpa using hk, Or.inl (set_stream hGet (receive_stream ..) k)⟩
    · split at h
      · rename_i hNone
        obtain rfl := Option.some.inj h
        refine ⟨by simpa using hk, ?_⟩
        by_cases hik : findStream a.id chain = k
        · refine Or.inr ⟨hik, ?_⟩
          rw [← hik, hGet]
          simpa [DataHead.stream] using hNone
        · exact Or.inl (by rw [List.getElem?_set_ne hik])
      · obtain rfl := Option.some.inj h
        refine ⟨by simp; omega, Or.inl ?_⟩
        rw [List.getElem?_append_left (by simpa using hk), set_stream hGet ?_ k]
        split
        · rfl
        · rw [processGzipData_stream]
          rfl

theorem freeDataStream_stream (chain : List (DataHead Gzip)) (id k : Nat) :
    (freeDataStream chain id).length = chain.length ∧
    ((freeDataStream chain id)[k]?.bind DataHead.stream = chain[k]?.bind DataHead.stream ∨
      (freeDataStream chain id)[k]?.bind DataHead.stream = none) := by
  unfold freeDataStream
  cases hGet : chain[findStream id chain]? with
  | none => simp [hGet]
  | some dh =>
    simp only [hGet]
    split
    · refine ⟨by simp, ?_⟩
      by_cases hik : findStream id chain = k
      · subst hik
        rw [List.getElem?_set_self (List.getElem?_eq_some_iff.mp hGet).1]
        exact Or.inr rfl
      · exact Or.inl (by rw [List.getElem?_set_ne hik])
    · exact ⟨rfl, Or.inl rfl⟩

/-! ### Runs -/

/-- Between `get_buffer` and the end of the poll the head is free or holds the inspected stream. -/
structure BucketState.Inv (k : Nat) (s : BucketState Gzip) : Prop where
  inRange : k < s.chain.length
  inspected : ∀ buffer inspected, s.poll = .got buffer inspected →
    ∀ id, s.streamAt k = some id → inspected = some id

variable {code} {gkMethod : Int} {k : Nat} {s s' : BucketState Gzip}

theorem BucketState.Inv.step (h : s.Inv k) (e : BucketStep) (hOk : ¬s.Reuses k e)
    (hStep : s.step code gkMethod k e = some s') : s'.Inv k := by
  cases e with
  | insert a ds fromClient =>
    cases hInsert : insertNewDataSegment code s.chain a ds fromClient with
    | none => simp [BucketState.step, hInsert] at hStep
    | some chain =>
      simp only [BucketState.step, hInsert, Option.bind_eq_bind, Option.bind_some,
        Option.some.injEq] at hStep
      subst hStep
      obtain ⟨hLt, hSame | ⟨hFind, hFree⟩⟩ :=
        insertNewDataSegment_stream code hInsert h.inRange
      · exact ⟨hLt, fun buffer inspected hPoll id hId =>
          h.inspected buffer inspected hPoll id (hSame.symm.trans hId)⟩
      · exact ⟨hLt, fun buffer inspected hPoll id hId =>
          absurd ⟨buffer, inspected, a, ds, fromClient, hPoll, rfl, hFind, hFree⟩ hOk⟩
  | free id =>
    obtain rfl := Option.some.inj hStep
    obtain ⟨hLength, hStream⟩ := freeDataStream_stream s.chain id k
    refine ⟨hLength ▸ h.inRange, fun buffer inspected hPoll id' hId => ?_⟩
    rcases hStream with hSame | hNone
    · exact h.inspected buffer inspected hPoll id' (hSame.symm.trans hId)
    · exact absurd (hNone.symm.trans hId) (by simp)
  | checkGk =>
    cases hPoll : s.poll with
    | idle =>
      simp only [BucketState.step, hPoll, List.getElem?_eq_getElem h.inRange, Option.bind_eq_bind,
        Option.bind_some, Option.some.injEq] at hStep
      subst hStep
      refine ⟨by simpa using h.inRange, fun buffer inspected hGot => ?_⟩
      simp only at hGot
      split at hGot <;> cases hGot
    | checked => simp [BucketState.step, hPoll] at hStep
    | got buffer inspected => simp [BucketState.step, hPoll] at hStep
  | getBuffer =>
    cases hPoll : s.poll with
    | idle => simp [BucketState.step, hPoll] at hStep
    | checked =>
      simp only [BucketState.step, hPoll, List.getElem?_eq_getElem h.inRange, Option.bind_eq_bind,
        Option.bind_some, Option.some.injEq] at hStep
      subst hStep
      refine ⟨h.inRange, fun buffer inspected hGot id hId => ?_⟩
      obtain ⟨-, rfl⟩ := BucketPoll.got.inj hGot
      simpa [BucketState.streamAt, List.getElem?_eq_getElem h.inRange] using hId
    | got buffer inspected => simp [BucketState.step, hPoll] at hStep
  | setGk =>
    cases hPoll : s.poll with
    | idle => simp [BucketState.step, hPoll] at hStep
    | checked => simp [BucketState.step, hPoll] at hStep
    | got buffer inspected =>
      cases hRequests : requests buffer with
      | none => simp [BucketState.step, hPoll, hRequests] at hStep
      | some request =>
        cases request with
        | nil => simp [BucketState.step, hPoll, hRequests] at hStep
        | cons r rest =>
          simp only [BucketState.step, hPoll, List.getElem?_eq_getElem h.inRange, hRequests,
            Option.bind_eq_bind, Option.bind_some, Option.some.injEq] at hStep
          subst hStep
          exact ⟨by simpa using h.inRange, fun _ _ hGot => nomatch hGot⟩
  | updateDh =>
    cases hPoll : s.poll with
    | idle => simp [BucketState.step, hPoll] at hStep
    | checked => simp [BucketState.step, hPoll] at hStep
    | got buffer inspected =>
      cases hRequests : requests buffer with
      | none => simp [BucketState.step, hPoll, hRequests] at hStep
      | some request =>
        simp only [BucketState.step, hPoll, List.getElem?_eq_getElem h.inRange, hRequests,
          Option.bind_eq_bind, Option.bind_some, Option.some.injEq] at hStep
        subst hStep
        exact ⟨by simpa using h.inRange, fun _ _ hGot => nomatch hGot⟩

/-- A poll that is at its act has passed `get_buffer`. -/
theorem BucketState.Inv.acts (h : s.Inv k) : s.ActsOnInspected code gkMethod k := by
  intro e s' he hStep id hId
  cases hPoll : s.poll with
  | idle => rcases he with rfl | rfl <;> simp [BucketState.step, hPoll] at hStep
  | checked => rcases he with rfl | rfl <;> simp [BucketState.step, hPoll] at hStep
  | got buffer inspected => exact ⟨buffer, by rw [h.inspected buffer inspected hPoll id hId]⟩

/-- In a run in which the polled head is not taken for another stream between `get_buffer` and the
end of the poll, each poll acts on the stream that it has inspected. -/
theorem poll_acts_on_inspected (code : GzipCode Gzip) (gkMethod : Int)
    (chain : List (DataHead Gzip)) (k : Nat) (hk : k < chain.length) {s : BucketState Gzip}
    (hRun : Reaches (BucketState.step code gkMethod k) (fun s e => ¬s.Reuses k e)
      ⟨chain, .idle⟩ s) : s.ActsOnInspected code gkMethod k :=
  (hRun.invariant (P := BucketState.Inv k) ⟨hk, fun _ _ hGot => nomatch hGot⟩
    fun _ e _ h hOk hStep => h.step e hOk hStep).acts

/-- The decompressor that does nothing. -/
def GzipCode.idle : GzipCode Unit := ⟨(), id, id, fun _ gzip gkState => (gzip, gkState)⟩

/-- Another segment of the stream comes in during the poll. -/
theorem poll_acts_on_inspected_append :
    BucketState.ActsOnInspected GzipCode.idle 1 0
      ⟨[⟨some ⟨1, 0⟩, [[71], [72]], some 0, 0, [], ()⟩],
        .got (some [71]) (some 1)⟩ := by
  refine poll_acts_on_inspected GzipCode.idle 1 [⟨none, [], none, 0, [], ()⟩] 0 (by decide) ?_
  have h₀ : Reaches (BucketState.step GzipCode.idle 1 0) (fun s e => ¬s.Reuses 0 e)
      ⟨[⟨none, [], none, 0, [], ()⟩], .idle⟩
        ⟨[⟨none, [], none, 0, [], ()⟩], .idle⟩ := .start
  have h₁ := h₀.step
    (a := .insert ⟨1, 0⟩ [71] true) (by rintro ⟨_, _, _, _, _, hPoll, -⟩; cases hPoll) rfl
  have h₂ :=
    (h₁.step (a := .checkGk) (by rintro ⟨_, _, _, _, _, hPoll, -⟩; cases hPoll) rfl).step
    (a := .getBuffer) (by rintro ⟨_, _, _, _, _, hPoll, -⟩; cases hPoll) rfl
  refine h₂.step (a := .insert ⟨1, 0⟩ [72] true) ?_ rfl
  rintro ⟨_, _, _, _, _, -, -, -, hFree⟩
  cases hFree

/-- The head of stream 1 is closed and taken for stream 2 before `update_dh`, which then moves the
cursor of stream 2. -/
theorem poll_acts_on_reused_head :
    ¬∀ s : BucketState Unit,
      Reaches (BucketState.step GzipCode.idle 1 0) (fun _ _ => True)
        ⟨[⟨none, [], none, 0, [], ()⟩], .idle⟩ s →
          s.ActsOnInspected GzipCode.idle 1 0 := by
  intro h
  let request : Segment := ['G', 'E', 'T', ' ', '/'].map fun c => c.toNat.toUInt8
  let s : BucketState Unit :=
    ⟨[⟨some ⟨2, 0⟩, [request], none, 0, [], ()⟩], .got (some request) (some 1)⟩
  have hRun : Reaches (BucketState.step GzipCode.idle 1 0) (fun _ _ => True)
      ⟨[⟨none, [], none, 0, [], ()⟩], .idle⟩ s := Reaches.start.of_foldlM
    [.insert ⟨1, 0⟩ request true, .checkGk, .getBuffer, .free 1,
      .insert ⟨2, 0⟩ request true] rfl
  obtain ⟨buffer, hPoll⟩ := h s hRun .updateDh
    ⟨[⟨some ⟨2, 0⟩, [request], some 0, 0, [], ()⟩], .idle⟩ (Or.inr rfl) rfl 2 rfl
  exact absurd (Option.some.inj (BucketPoll.got.inj hPoll).2) (by decide)

end Shutter.Stream
