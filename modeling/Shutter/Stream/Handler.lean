import Shutter.Stream.Store
import Mathlib.Data.Finset.Insert
import Mathlib.Data.Finset.Erase

/-! The callback `tcp_stream_handler` of `get_data.c` over one bucket of the stream cache.  A new
connection looks for a head of an earlier one with its addresses, but frees its own stream, which no
head holds, so the earlier one stays. -/

namespace Shutter.Stream

open Shutter.Library

variable {Gzip : Type}

/-- A `struct tuple4`. -/
structure Tuple4 where
  source : UInt16
  dest : UInt16
  saddr : UInt32
  daddr : UInt32
  deriving DecidableEq

/-- The values of `nids_state` that the handler looks for. -/
inductive NidsState where
  | justEst
  | data
  | close
  | reset
  | timedOut
  | blocked
  | other

/-- A `half_stream`, as far as the handler looks at it. -/
structure HalfStream where
  countNew : Nat
  countNewUrg : Nat
  data : List UInt8

/-- A call of the handler for `a_tcp`, with the `addr` fields of the streams at the time. -/
structure HandlerCall where
  aTcp : TcpStream
  addr : Nat → Tuple4
  nidsState : NidsState
  client : HalfStream
  server : HalfStream

/-- `tcp_stream_handler`, with memory for the new segment. -/
def tcpStreamHandler (code : GzipCode Gzip) (call : HandlerCall) (chain : List (DataHead Gzip)) :
    Option (List (DataHead Gzip)) :=
  match call.nidsState with
  | .justEst =>
    if chain.any fun dh => dh.stream.any fun id => call.addr id = call.addr call.aTcp.id then
      some (freeDataStream chain call.aTcp.id)
    else some chain
  | .timedOut | .close | .reset | .blocked => some (freeDataStream chain call.aTcp.id)
  | .data =>
    if call.server.countNewUrg ≠ 0 then some chain
    else if call.client.countNewUrg ≠ 0 then some chain
    else if call.client.countNew ≠ 0 then
      insertNewDataSegment code chain call.aTcp (call.client.data.take call.client.countNew) false
    else
      insertNewDataSegment code chain call.aTcp (call.server.data.take call.server.countNew) true
  | .other => some chain

/-- A step of the capture thread, or one of the writes of a poll to the head at an index. -/
inductive CacheStep (Gzip : Type) where
  | handler (code : GzipCode Gzip) (call : HandlerCall)
  | checkGk (k : Nat) (gkMethod : Int)
  | setGk (k : Nat) (method : Int)
  | updateDh (k : Nat) (request : List (List UInt8))

def CacheStep.run (chain : List (DataHead Gzip)) : CacheStep Gzip → Option (List (DataHead Gzip))
  | .handler code call => tcpStreamHandler code call chain
  | .checkGk k gkMethod => some (chain.modify k fun dh => (Stream.checkGk gkMethod dh).2)
  | .setGk k method => some (chain.modify k fun dh => Stream.setGk dh method)
  | .updateDh k request => some (chain.modify k fun dh => Stream.updateDh dh request)

/-! ### The streams in the bucket -/

/-- The streams with a head after a call: a segment adds its stream, and every other state of the
connection takes it away. -/
def HandlerCall.live (ids : Finset Nat) (call : HandlerCall) : Finset Nat :=
  match call.nidsState with
  | .justEst | .timedOut | .close | .reset | .blocked => ids.erase call.aTcp.id
  | .data =>
    if call.server.countNewUrg ≠ 0 ∨ call.client.countNewUrg ≠ 0 then ids
    else insert call.aTcp.id ids
  | .other => ids

def CacheStep.live (ids : Finset Nat) : CacheStep Gzip → Finset Nat
  | .handler _ call => call.live ids
  | .checkGk .. | .setGk .. | .updateDh .. => ids

/-- The streams with a head after a run. -/
def liveAfter (steps : List (CacheStep Gzip)) : Finset Nat := steps.foldl CacheStep.live ∅

theorem liveAfter_concat (steps : List (CacheStep Gzip)) (step : CacheStep Gzip) :
    liveAfter (steps ++ [step]) = step.live (liveAfter steps) := by
  simp [liveAfter]

/-- Each of the streams has one head, and no other stream has one. -/
structure Registered (ids : Finset Nat) (chain : List (DataHead Gzip)) : Prop where
  nonempty : chain ≠ []
  held : ∀ id, id ∈ ids ↔ ∃ k, streamAt chain k = some id
  unique : ∀ i j id, streamAt chain i = some id → streamAt chain j = some id → i = j

section Registered

variable {ids : Finset Nat} {chain : List (DataHead Gzip)} {dh dh' : DataHead Gzip} {i id : Nat}

theorem streamAt_set (hGet : chain[i]? = some dh) (k : Nat) :
    streamAt (chain.set i dh') k = if k = i then dh'.stream else streamAt chain k := by
  unfold streamAt
  by_cases hki : k = i
  · subst hki
    rw [List.getElem?_set_self (List.getElem?_eq_some_iff.mp hGet).1, if_pos rfl]
    rfl
  · rw [List.getElem?_set_ne (Ne.symm hki), if_neg hki]

theorem streamAt_eq (hGet : chain[i]? = some dh) : streamAt chain i = dh.stream := by
  rw [streamAt, hGet]
  rfl

theorem Registered.congr (h : Registered ids chain) {chain' : List (DataHead Gzip)}
    (hNonempty : chain' ≠ []) (hSame : ∀ k, streamAt chain' k = streamAt chain k) :
    Registered ids chain' := by
  refine ⟨hNonempty, ?_, ?_⟩
  · intro id
    simp only [hSame]
    exact h.held id
  · intro i j id
    simp only [hSame]
    exact h.unique i j id

theorem Registered.keep (h : Registered ids chain) (hGet : chain[i]? = some dh)
    (hStream : dh'.stream = dh.stream) : Registered ids (chain.set i dh') := by
  apply h.congr
  · simpa using h.nonempty
  · intro k
    rw [streamAt_set hGet]
    split
    · rename_i hki
      rw [hki, streamAt_eq hGet, hStream]
    · rfl

theorem Registered.add (h : Registered ids chain) {chain' : List (DataHead Gzip)}
    (hNonempty : chain' ≠ []) (hNone : streamAt chain i = none) (hNew : id ∉ ids)
    (hAt : ∀ k, streamAt chain' k = if k = i then some id else streamAt chain k) :
    Registered (insert id ids) chain' := by
  have hNoHead : ∀ k, streamAt chain k ≠ some id := fun k hk =>
    hNew ((h.held id).mpr ⟨k, hk⟩)
  refine ⟨hNonempty, ?_, ?_⟩
  · intro id'
    simp only [hAt, Finset.mem_insert, h.held]
    constructor
    · rintro (rfl | ⟨k, hk⟩)
      · exact ⟨i, by simp⟩
      · refine ⟨k, ?_⟩
        rw [if_neg, hk]
        rintro rfl
        rw [hNone] at hk
        cases hk
    · rintro ⟨k, hk⟩
      split at hk
      · exact Or.inl (Option.some.inj hk).symm
      · exact Or.inr ⟨k, hk⟩
  · intro j k id' hj hk
    rw [hAt] at hj hk
    split at hj
    · rename_i hji
      obtain rfl := Option.some.inj hj
      split at hk
      · rename_i hki
        rw [hji, hki]
      · exact absurd hk (hNoHead k)
    · split at hk
      · obtain rfl := Option.some.inj hk
        exact absurd hj (hNoHead j)
      · exact h.unique j k id' hj hk

theorem Registered.remove (h : Registered ids chain) {chain' : List (DataHead Gzip)}
    (hNonempty : chain' ≠ []) (hStream : streamAt chain i = some id)
    (hAt : ∀ k, streamAt chain' k = if k = i then none else streamAt chain k) :
    Registered (ids.erase id) chain' := by
  refine ⟨hNonempty, ?_, ?_⟩
  · intro id'
    simp only [hAt, Finset.mem_erase, h.held]
    constructor
    · rintro ⟨hne, k, hk⟩
      refine ⟨k, ?_⟩
      rw [if_neg, hk]
      rintro rfl
      rw [hStream] at hk
      exact hne (Option.some.inj hk).symm
    · rintro ⟨k, hk⟩
      split at hk
      · cases hk
      · rename_i hki
        refine ⟨?_, k, hk⟩
        rintro rfl
        exact hki (h.unique k i id' hk hStream)
  · intro j k id' hj hk
    rw [hAt] at hj hk
    split at hj
    · cases hj
    · split at hk
      · cases hk
      · exact h.unique j k id' hj hk

theorem Registered.insert (h : Registered ids chain) (code : GzipCode Gzip) (a : TcpStream)
    (ds : Segment) (fromClient : Bool) : ∃ chain',
      insertNewDataSegment code chain a ds fromClient = some chain' ∧
      Registered (Insert.insert a.id ids) chain' := by
  obtain ⟨dh, hGet, hCases⟩ := insertNewDataSegment_cases code a ds fromClient h.nonempty
  have hNone : ∀ id, (∀ dh' ∈ chain, dh'.stream ≠ some id) → id ∉ ids := by
    intro id hNo hMem
    obtain ⟨k, hk⟩ := (h.held id).mp hMem
    exact not_streamAt hNo k hk
  rcases hCases with ⟨hHere, hRun⟩ | ⟨hNo, hFree, hRun⟩ | ⟨hNo, -, hRun⟩
  · refine ⟨_, hRun, ?_⟩
    have hMem : a.id ∈ ids := (h.held a.id).mpr ⟨_, (streamAt_eq hGet).trans hHere⟩
    rw [Finset.insert_eq_of_mem hMem]
    exact h.keep hGet (receive_stream ..)
  · refine ⟨_, hRun, ?_⟩
    apply h.add (i := findStream a.id chain) _ _ (hNone _ hNo)
    · intro k
      rw [streamAt_set hGet, reuseHead_stream]
    · simpa using h.nonempty
    · rw [streamAt_eq hGet, DataHead.stream, hFree]
      rfl
  · refine ⟨_, hRun, ?_⟩
    have hKept := h.keep hGet (allocateHead_stream code dh fromClient)
    apply hKept.add (i := chain.length) _ _ (hNone _ hNo)
    · intro k
      unfold streamAt
      rcases Nat.lt_trichotomy k chain.length with hk | rfl | hk
      · rw [List.getElem?_append_left (by simpa using hk), if_neg (by omega)]
      · simp [newHead, DataHead.stream]
      · rw [if_neg (by omega), List.getElem?_eq_none (by simp; omega),
          List.getElem?_eq_none (by simp; omega)]
    · simp
    · simp [streamAt]

theorem Registered.free (h : Registered ids chain) (id : Nat) :
    Registered (ids.erase id) (freeDataStream chain id) := by
  obtain ⟨dh, hGet, hCase⟩ := findStream_spec id chain h.nonempty
  unfold freeDataStream
  simp only [hGet]
  by_cases hHere : dh.stream = some id
  · rw [if_pos hHere]
    apply h.remove (i := findStream id chain)
    · simpa using h.nonempty
    · exact (streamAt_eq hGet).trans hHere
    · exact streamAt_set hGet
  · rw [if_neg hHere, Finset.erase_eq_of_notMem]
    · exact h
    · intro hMem
      obtain ⟨k, hk⟩ := (h.held id).mp hMem
      exact not_streamAt (hCase.resolve_left hHere).1 k hk

theorem Registered.modify (h : Registered ids chain) {f : DataHead Gzip → DataHead Gzip}
    (hf : ∀ dh, (f dh).stream = dh.stream) (k : Nat) : Registered ids (chain.modify k f) := by
  apply h.congr
  · simpa using h.nonempty
  · intro j
    unfold streamAt
    rw [List.getElem?_modify]
    cases chain[j]? with
    | none => rfl
    | some dh =>
      simp only [Option.bind_some]
      split
      · exact hf dh
      · rfl

end Registered

/-! ### Runs -/

section Runs

variable {ids : Finset Nat} {chain : List (DataHead Gzip)}

theorem Registered.mem_iff (h : Registered ids chain) (id : Nat) :
    id ∈ ids ↔ ∃ dh ∈ chain, dh.stream = some id := by
  rw [h.held]
  constructor
  · rintro ⟨k, hk⟩
    obtain ⟨dh, hGet, hId⟩ := Option.bind_eq_some_iff.mp hk
    exact ⟨dh, List.mem_of_getElem? hGet, hId⟩
  · rintro ⟨dh, hMem, hId⟩
    obtain ⟨k, hGet⟩ := List.mem_iff_getElem?.mp hMem
    exact ⟨k, (streamAt_eq hGet).trans hId⟩

theorem Registered.handler (h : Registered ids chain) (code : GzipCode Gzip) (call : HandlerCall) :
    ∃ chain', tcpStreamHandler code call chain = some chain' ∧
      Registered (call.live ids) chain' := by
  unfold tcpStreamHandler HandlerCall.live
  cases call.nidsState with
  | justEst =>
    simp only
    split
    · exact ⟨_, rfl, h.free _⟩
    · rename_i hNone
      refine ⟨chain, rfl, ?_⟩
      rw [Finset.erase_eq_of_notMem]
      · exact h
      -- a stream that had a head would have found it, under its own address
      · intro hMem
        obtain ⟨dh, hdh, hId⟩ := (h.mem_iff _).mp hMem
        apply hNone
        rw [List.any_eq_true]
        exact ⟨dh, hdh, by simp [hId]⟩
  | timedOut => exact ⟨_, rfl, h.free _⟩
  | close => exact ⟨_, rfl, h.free _⟩
  | reset => exact ⟨_, rfl, h.free _⟩
  | blocked => exact ⟨_, rfl, h.free _⟩
  | data =>
    simp only
    by_cases hServer : call.server.countNewUrg ≠ 0
    · exact ⟨chain, by rw [if_pos hServer], by rwa [if_pos (Or.inl hServer)]⟩
    · by_cases hClient : call.client.countNewUrg ≠ 0
      · exact ⟨chain, by rw [if_neg hServer, if_pos hClient], by rwa [if_pos (Or.inr hClient)]⟩
      · rw [if_neg hServer, if_neg hClient, if_neg (not_or.mpr ⟨hServer, hClient⟩)]
        split
        · exact h.insert code _ _ _
        · exact h.insert code _ _ _
  | other => exact ⟨chain, rfl, h⟩

theorem checkGk_stream (gkMethod : Int) (dh : DataHead Gzip) :
    (Stream.checkGk gkMethod dh).2.stream = dh.stream := by
  rcases checkGk_cases gkMethod dh with ⟨hSame, -⟩ | ⟨-,
    ⟨-, hFirst⟩ | ⟨t, -, -, hSame⟩⟩
  · rw [hSame]
  · rw [hFirst]
    rfl
  · rw [hSame]

theorem setGk_stream (method : Int) (dh : DataHead Gzip) :
    (Stream.setGk dh method).stream = dh.stream := by
  unfold Stream.setGk DataHead.stream
  split
  · cases dh.aTcp <;> rfl
  · rfl

theorem updateDh_stream (request : List (List UInt8)) (dh : DataHead Gzip) :
    (Stream.updateDh dh request).stream = dh.stream := by
  unfold Stream.updateDh
  cases ha : dh.aTcp with
  | none => rfl
  | some a => simp [DataHead.stream, ha]

theorem Registered.step (h : Registered ids chain) (step : CacheStep Gzip) :
    ∃ chain', step.run chain = some chain' ∧ Registered (step.live ids) chain' := by
  cases step with
  | handler code call => exact h.handler code call
  | checkGk k gkMethod => exact ⟨_, rfl, h.modify (checkGk_stream gkMethod) k⟩
  | setGk k method => exact ⟨_, rfl, h.modify (setGk_stream method) k⟩
  | updateDh k request => exact ⟨_, rfl, h.modify (updateDh_stream request) k⟩

/-- After every run the heads hold the live streams. -/
theorem registered_run (first : DataHead Gzip) (hFirst : first.aTcp = none)
    (steps : List (CacheStep Gzip)) : ∃ chain,
      steps.foldlM CacheStep.run [first] = some chain ∧ Registered (liveAfter steps) chain := by
  have hStart : Registered (liveAfter ([] : List (CacheStep Gzip))) [first] := by
    have hNone : ∀ k, streamAt [first] k = none := by
      intro k
      rw [streamAt, List.getElem?_singleton]
      split
      · simp [DataHead.stream, hFirst]
      · rfl
    refine ⟨by simp, ?_, ?_⟩
    · simp [liveAfter, hNone]
    · simp [hNone]
  apply foldlM_invariant CacheStep.run (fun done chain => Registered (liveAfter done) chain) steps
    hStart
  intro done step rest _ chain h
  rw [liveAfter_concat]
  exact h.step step

/-- A head holds another stream than `id` with its addresses. -/
def Stale (addr : Nat → Tuple4) (id : Nat) (chain : List (DataHead Gzip)) : Prop :=
  ∃ dh ∈ chain, ∃ id', dh.stream = some id' ∧ id' ≠ id ∧ addr id' = addr id

/-- Behind `NIDS_JUST_EST` no head holds another stream with the addresses of the new one exactly
when no other stream with these addresses is live before. -/
theorem established_alone_iff (first : DataHead Gzip) (hFirst : first.aTcp = none)
    (steps : List (CacheStep Gzip)) (chain : List (DataHead Gzip))
    (hRun : steps.foldlM CacheStep.run [first] = some chain) (code : GzipCode Gzip)
    (call : HandlerCall) (hEst : call.nidsState = .justEst) :
    (∃ chain', tcpStreamHandler code call chain = some chain' ∧
      ¬Stale call.addr call.aTcp.id chain') ↔
      ∀ id ∈ liveAfter steps, id ≠ call.aTcp.id → call.addr id ≠
        call.addr call.aTcp.id := by
  obtain ⟨chain₁, hRun₁, h⟩ := registered_run first hFirst steps
  obtain rfl := Option.some.inj (hRun₁.symm.trans hRun)
  obtain ⟨chain', hHandler, h'⟩ := h.handler code call
  have hLive : call.live (liveAfter steps) = (liveAfter steps).erase call.aTcp.id := by
    simp only [HandlerCall.live, hEst]
  rw [hLive] at h'
  constructor
  · rintro ⟨chain'', hHandler', hAlone⟩ id hId hne hAddr
    obtain rfl := Option.some.inj (hHandler.symm.trans hHandler')
    obtain ⟨dh, hdh, hStream⟩ := (h'.mem_iff id).mp (Finset.mem_erase.mpr ⟨hne, hId⟩)
    exact hAlone ⟨dh, hdh, id, hStream, hne, hAddr⟩
  · intro hAlone
    refine ⟨chain', hHandler, ?_⟩
    rintro ⟨dh, hdh, id, hStream, hne, hAddr⟩
    have hId := (h'.mem_iff id).mpr ⟨dh, hdh, hStream⟩
    exact hAlone id (Finset.mem_of_mem_erase hId) hne hAddr

/-- A call for a stream, where all streams have the same addresses, and the server has one byte. -/
def sameAddress (id : Nat) (nidsState : NidsState) : HandlerCall :=
  ⟨⟨id, 0⟩, fun _ => ⟨1024, 80, 1, 2⟩, nidsState, ⟨0, 0, []⟩, ⟨1, 0, [71]⟩⟩

/-- The head of a bucket without segments. -/
def freeHead : DataHead Unit := ⟨none, [], none, 0, [], ()⟩

/-- The stream 1 sends a byte and closes, and its addresses are used again. -/
theorem established_alone_iff_closed : ∃ chain,
    [CacheStep.handler GzipCode.idle (sameAddress 1 .data),
      .handler GzipCode.idle (sameAddress 1 .close)].foldlM CacheStep.run [freeHead] =
        some chain ∧
    ∃ chain', tcpStreamHandler GzipCode.idle (sameAddress 2 .justEst) chain = some chain' ∧
      ¬Stale (sameAddress 2 .justEst).addr 2 chain' :=
  ⟨_, rfl, (established_alone_iff freeHead rfl
    [.handler GzipCode.idle (sameAddress 1 .data), .handler GzipCode.idle (sameAddress 1 .close)]
    _ rfl GzipCode.idle (sameAddress 2 .justEst) rfl).mpr (by decide)⟩

/-- The stream 1 sends a byte, and its addresses are used again without a close. -/
theorem established_beside_stale :
    ¬∀ (steps : List (CacheStep Unit)) (chain : List (DataHead Unit)) (call : HandlerCall),
      steps.foldlM CacheStep.run [freeHead] = some chain → call.nidsState = .justEst →
      (∀ dh ∈ chain, dh.stream ≠ some call.aTcp.id) →
      ∃ chain', tcpStreamHandler GzipCode.idle call chain = some chain' ∧
        ¬Stale call.addr call.aTcp.id chain' := by
  intro h
  obtain ⟨chain', hHandler, hAlone⟩ := h [.handler GzipCode.idle (sameAddress 1 .data)] _
    (sameAddress 2 .justEst) rfl rfl (by decide)
  obtain rfl := Option.some.inj hHandler
  exact hAlone ⟨_, List.mem_cons_self, 1, rfl, by decide, rfl⟩

end Runs

end Shutter.Stream
