import Shutter.Gunzip.Frame

/-! One bucket of the stream cache as a store: each stream keeps its segments in one head of the
chain, whatever the order in which streams come and go.  `process_gzip_data` is the one of
`copeungz.c`. -/

namespace Shutter.Stream

open Shutter.Gunzip (Buffer Gzip Machine State InBlocks)
open Shutter.Library

/-- The two buffers that `malloc` returns.  Their contents are not known. -/
structure Malloc where
  distBuf : Buffer Nat
  litterBuf : Buffer UInt8

/-- What `insert_new_data_segment` does to the part of a head that belongs to
`process_gzip_data`. -/
def gzipCode (m : Machine) (malloc : Malloc) : GzipCode Gzip where
  zero := Gzip.zero
  reuse g :=
    { g with distBuf := g.distBuf <|> some malloc.distBuf,
             litterBuf := g.litterBuf <|> some malloc.litterBuf,
             dist := 0, lit := 0, currentBlock := none }
  allocate g := { g with distBuf := some malloc.distBuf, litterBuf := some malloc.litterBuf }
  process down g gkState :=
    let s := (Gunzip.process m).final (State.start down g gkState)
    (s.toGzip, s.gkState)

/-- A head of the table at the start. -/
def DataHead.zero : DataHead Gzip := ⟨none, [], none, 0, [], Gzip.zero⟩

/-- A call of one of the two functions. -/
inductive StoreCall where
  | insert (a : TcpStream) (ds : Segment) (fromClient : Bool) (malloc : Malloc)
  | free (id : Nat)

def StoreCall.run (m : Machine) (chain : List (DataHead Gzip)) :
    StoreCall → Option (List (DataHead Gzip))
  | .insert a ds fromClient malloc => insertNewDataSegment (gzipCode m malloc) chain a ds fromClient
  | .free id => some (freeDataStream chain id)

/-- The segments of a direction that the stream has received since it was last freed. -/
def received (id : Nat) (fromClient : Bool) (calls : List StoreCall) : List Segment :=
  calls.foldl (fun segments call =>
    match call with
    | .insert a ds fromClient' _ =>
      if a.id = id ∧ fromClient' = fromClient then segments ++ [ds] else segments
    | .free id' => if id' = id then [] else segments) []

/-- The stream has received a segment since it was last freed. -/
def Live (id : Nat) (calls : List StoreCall) : Prop :=
  received id true calls ≠ [] ∨ received id false calls ≠ []

/-! ### Looking for a stream -/

section Find

variable {G : Type}

/-- Where the loop of `find_stream` stops: at the stream, or at the last head when the stream is in
none, with the last free head before it. -/
theorem findLoop_spec (id : Nat) (chain : List (DataHead G)) (h : chain ≠ []) (i : Nat)
    (pNull : Option Nat) :
    ∃ k dh, (findLoop id chain i pNull).1 = i + k ∧ chain[k]? = some dh ∧
      (dh.stream = some id ∨
      (k + 1 = chain.length ∧ (∀ dh' ∈ chain, dh'.stream ≠ some id) ∧
        (((findLoop id chain i pNull).2 = pNull ∧ ∀ dh' ∈ chain.dropLast,
        dh'.aTcp ≠ none) ∨
          ∃ j dh', (findLoop id chain i pNull).2 = some (i + j) ∧ chain[j]? = some dh' ∧
            dh'.aTcp = none))) := by
  induction chain generalizing i pNull with
  | nil => exact absurd rfl h
  | cons dh rest ih =>
    cases rest with
    | nil =>
      refine ⟨0, dh, rfl, rfl, ?_⟩
      by_cases hHere : dh.stream = some id
      · exact Or.inl hHere
      · refine Or.inr ⟨rfl, fun dh' hMem =>
          ?_, Or.inl ⟨rfl, fun dh' hMem => by simp at hMem⟩⟩
        rw [List.mem_singleton.mp hMem]
        exact hHere
    | cons dh₁ rest =>
      by_cases hHere : dh.stream = some id
      · exact ⟨0, dh, by simp [findLoop, hHere], rfl, Or.inl hHere⟩
      · obtain ⟨k, found, hIndex, hGet, hCase⟩ :=
          ih (List.cons_ne_nil _ _) (i + 1) (if dh.aTcp.isNone then some i else pNull)
        have hLoop : findLoop id (dh :: dh₁ :: rest) i pNull =
            findLoop id (dh₁ :: rest) (i + 1) (if dh.aTcp.isNone then some i else pNull) := by
          conv_lhs => unfold findLoop
          rw [if_neg hHere]
        rw [hLoop]
        refine ⟨k + 1, found, by omega, hGet, ?_⟩
        rcases hCase with hFound | ⟨hLast, hNone, hFree⟩
        · exact Or.inl hFound
        · refine Or.inr ⟨by simpa using hLast, ?_, ?_⟩
          · rintro dh' (_ | ⟨_, hMem⟩)
            · exact hHere
            · exact hNone dh' hMem
          · rcases hFree with ⟨hSame, hUsed⟩ | ⟨j, dh', hj, hGet', hFree⟩
            · by_cases hFree : dh.aTcp = none
              · exact Or.inr ⟨0, dh, by rw [hSame, hFree]; rfl, rfl, hFree⟩
              · refine Or.inl ⟨by rw [hSame, if_neg (by simpa using hFree)], ?_⟩
                rintro dh' (_ | ⟨_, hMem⟩)
                · exact hFree
                · exact hUsed dh' hMem
            · exact Or.inr ⟨j + 1, dh', by rw [hj]; congr 1; omega, hGet', hFree⟩

/-- `find_stream` returns the head with the stream; without one, a free head; and without either,
the last head. -/
theorem findStream_spec (id : Nat) (chain : List (DataHead G)) (h : chain ≠ []) :
    ∃ dh, chain[findStream id chain]? = some dh ∧
      (dh.stream = some id ∨ ((∀ dh' ∈ chain, dh'.stream ≠ some id) ∧
        (dh.aTcp = none ∨ ∀ dh' ∈ chain, dh'.aTcp ≠ none))) := by
  obtain ⟨k, found, hIndex, hGet, hCase⟩ := findLoop_spec id chain h 0 none
  rw [Nat.zero_add] at hIndex
  have hFind : findStream id chain = if found.stream = some id then k
      else (findLoop id chain 0 none).2.getD k := by
    unfold findStream
    simp only [hIndex, hGet, Option.bind_some]
  rcases hCase with hFound | ⟨hLast, hNone, hFree⟩
  · exact ⟨found, by rw [hFind, if_pos hFound, hGet], Or.inl hFound⟩
  · rw [if_neg (hNone found (List.mem_of_getElem? hGet))] at hFind
    rcases hFree with ⟨hSame, hUsed⟩ | ⟨j, dh', hj, hGet', hFree⟩
    · refine ⟨found, by rw [hFind, hSame, Option.getD_none, hGet], Or.inr ⟨hNone, ?_⟩⟩
      by_cases hFree : found.aTcp = none
      · exact Or.inl hFree
      · have hTail : chain.getLast h = found := by
          obtain ⟨hk, hFound⟩ := List.getElem?_eq_some_iff.mp hGet
          rw [List.getLast_eq_getElem, ← hFound]
          congr 1
          omega
        refine Or.inr fun dh' hMem => ?_
        rw [← List.dropLast_append_getLast h, hTail] at hMem
        rcases List.mem_append.mp hMem with hMem | hMem
        · exact hUsed dh' hMem
        · rwa [List.mem_singleton.mp hMem]
    · refine ⟨dh', ?_, Or.inr ⟨hNone, Or.inl hFree⟩⟩
      rw [hFind, hj, Option.getD_some, Nat.zero_add, hGet']

end Find

/-! ### What a call does -/

/-- What the last branch of `insert_new_data_segment` does to the head before the new one. -/
def allocateHead {G : Type} (code : GzipCode G) (dh : DataHead G)
    (fromClient : Bool) : DataHead G :=
  if fromClient then { dh with gzip := code.allocate dh.gzip }
  else processGzipData code { dh with gzip := code.allocate dh.gzip }

section Insert

variable {m : Machine} {malloc : Malloc} {chain : List (DataHead Gzip)} {a : TcpStream}
  {ds : Segment}
  {fromClient : Bool}

/-- The three branches of `insert_new_data_segment`. -/
theorem insertNewDataSegment_cases {G : Type} (code : GzipCode G) {chain : List (DataHead G)}
    (a : TcpStream) (ds : Segment) (fromClient : Bool) (h : chain ≠ []) :
    ∃ dh, chain[findStream a.id chain]? = some dh ∧
      ((dh.stream = some a.id ∧ insertNewDataSegment code chain a ds fromClient =
          some (chain.set (findStream a.id chain) (receive code dh ds fromClient))) ∨
        ((∀ dh' ∈ chain, dh'.stream ≠ some a.id) ∧ dh.aTcp = none ∧
          insertNewDataSegment code chain a ds fromClient =
            some (chain.set (findStream a.id chain) (reuseHead code dh a ds fromClient))) ∨
        ((∀ dh' ∈ chain, dh'.stream ≠ some a.id) ∧
        (∀ dh' ∈ chain, dh'.aTcp ≠ none) ∧
          insertNewDataSegment code chain a ds fromClient =
            some (chain.set (findStream a.id chain) (allocateHead code dh fromClient) ++
              [newHead code a ds fromClient]))) := by
  obtain ⟨dh, hGet, hCase⟩ := findStream_spec a.id chain h
  refine ⟨dh, hGet, ?_⟩
  unfold insertNewDataSegment
  simp only [hGet, Option.bind_eq_bind, Option.bind_some]
  rcases hCase with hFound | ⟨hNone, hFree | hUsed⟩
  · exact Or.inl ⟨hFound, by rw [if_pos hFound]⟩
  · refine Or.inr (Or.inl ⟨hNone, hFree, ?_⟩)
    rw [if_neg (hNone dh (List.mem_of_getElem? hGet)), if_pos (by rw [hFree]; rfl)]
  · refine Or.inr (Or.inr ⟨hNone, hUsed, ?_⟩)
    have hdh := hUsed dh (List.mem_of_getElem? hGet)
    rw [if_neg (hNone dh (List.mem_of_getElem? hGet)), if_neg (by simpa using hdh)]
    rfl

/-- What `process_gzip_data` leaves alone. -/
theorem processGzipData_spec (m : Machine) (malloc : Malloc) (dh : DataHead Gzip) :
    (processGzipData (gzipCode m malloc) dh).up = dh.up ∧
    (processGzipData (gzipCode m malloc) dh).down = dh.down ∧
    (processGzipData (gzipCode m malloc) dh).tempUp = dh.tempUp := by
  unfold processGzipData
  cases dh.aTcp with
  | none => exact ⟨rfl, rfl, rfl⟩
  | some a =>
    by_cases hDown : dh.down = []
    · simp [hDown]
    · simp [hDown]

/-- `process_gzip_data` keeps the buffers, and a bound on `current_block` that no block exceeds. -/
theorem processGzipData_gzip (m : Machine) (malloc : Malloc) (dh : DataHead Gzip)
    {bound : Nat} (hBound : dh.down.length ≤ bound)
    (h : ∀ c, dh.gzip.currentBlock = some c → c < bound) :
    (∀ c, (processGzipData (gzipCode m malloc) dh).gzip.currentBlock = some c → c < bound) ∧
    (processGzipData (gzipCode m malloc) dh).gzip.distBuf.map Buffer.address =
      dh.gzip.distBuf.map Buffer.address := by
  unfold processGzipData
  cases dh.aTcp with
  | none => exact ⟨h, rfl⟩
  | some a =>
    by_cases hDown : dh.down = []
    · simpa [hDown] using h
    · simp only [hDown, if_false]
      have hKept := Gunzip.keeps_final (s := State.start dh.down dh.gzip a.gkState)
        (Gunzip.process_inBlocks m hDown) ⟨rfl, hBound, h, rfl, rfl⟩
      exact ⟨hKept.currentBlock, hKept.distBuf⟩

end Insert

section Received

variable (id : Nat) (fromClient : Bool) (calls : List StoreCall)

theorem received_insert (a : TcpStream) (ds : Segment) (fromClient' : Bool) (malloc : Malloc) :
    received id fromClient (calls ++ [.insert a ds fromClient' malloc]) =
      if a.id = id ∧ fromClient' = fromClient then received id fromClient calls ++ [ds]
      else received id fromClient calls := by
  simp [received, List.foldl_append]

theorem received_free (id' : Nat) :
    received id fromClient (calls ++ [.free id']) =
      if id' = id then [] else received id fromClient calls := by
  simp [received, List.foldl_append]

end Received

/-! ### The invariant -/

/-- A head is free and empty, or it has the segments of its stream. -/
structure DataHead.Intact (calls : List StoreCall) (dh : DataHead Gzip) : Prop where
  free : dh.aTcp = none → dh.up = [] ∧ dh.down = []
  live : ∀ id, dh.stream = some id → Live id calls
  up : ∀ id, dh.stream = some id → dh.up = received id true calls
  down : ∀ id, dh.stream = some id → dh.down = received id false calls
  tempUp : dh.aTcp ≠ none → ∀ t, dh.tempUp = some t → t < dh.up.length
  currentBlock : dh.aTcp ≠ none → ∀ c, dh.gzip.currentBlock = some c → c < dh.down.length

/-- The stream of the head at index `k`. -/
def streamAt {G : Type} (chain : List (DataHead G)) (k : Nat) : Option Nat :=
  chain[k]?.bind DataHead.stream

/-- Each live stream has one head, and the heads are intact. -/
structure Separate (calls : List StoreCall) (chain : List (DataHead Gzip)) : Prop where
  nonempty : chain ≠ []
  intact : ∀ (k : Nat) (dh : DataHead Gzip), chain[k]? = some dh → dh.Intact calls
  held : ∀ id, Live id calls → ∃ k, streamAt chain k = some id
  unique : ∀ i j id, streamAt chain i = some id → streamAt chain j = some id → i = j

section Step

variable {m : Machine} {malloc : Malloc} {chain : List (DataHead Gzip)}
  {calls calls' : List StoreCall}
  {a : TcpStream} {ds : Segment} {fromClient : Bool} {dh dh' : DataHead Gzip} {i id : Nat}
  {malloc' : Malloc}

theorem live_insert :
    Live id (calls ++ [.insert a ds fromClient malloc]) ↔ a.id = id ∨ Live id calls := by
  unfold Live
  rw [received_insert, received_insert]
  by_cases hSame : a.id = id
  · cases fromClient <;> simp [hSame]
  · simp [hSame]

theorem live_free (id' : Nat) : Live id (calls ++ [.free id']) ↔ id' ≠ id ∧
    Live id calls := by
  unfold Live
  rw [received_free, received_free]
  by_cases hSame : id' = id
  · simp [hSame]
  · simp [hSame]

theorem received_of_not_live (h : ¬Live id calls) (fromClient : Bool) :
    received id fromClient calls = [] := by
  unfold Live at h
  push Not at h
  cases fromClient
  · exact h.2
  · exact h.1

/-- A segment or a close of another stream changes nothing about a head. -/
theorem DataHead.Intact.other (h : dh.Intact calls)
    (hLive : ∀ id, dh.stream = some id → Live id calls → Live id calls')
    (hReceived : ∀ id fromClient, dh.stream = some id →
      received id fromClient calls' = received id fromClient calls) : dh.Intact calls' where
  free := h.free
  live id hId := hLive id hId (h.live id hId)
  up id hId := (h.up id hId).trans (hReceived id true hId).symm
  down id hId := (h.down id hId).trans (hReceived id false hId).symm
  tempUp := h.tempUp
  currentBlock := h.currentBlock

theorem DataHead.Intact.insert_other (h : dh.Intact calls) (hOther : dh.stream ≠ some a.id) :
    dh.Intact (calls ++ [.insert a ds fromClient malloc]) := by
  refine h.other (fun id _ hLive => live_insert.mpr (Or.inr hLive)) fun id fromClient hId => ?_
  rw [received_insert, if_neg]
  rintro ⟨rfl, -⟩
  exact hOther hId

theorem DataHead.Intact.free_other (h : dh.Intact calls) {id' : Nat}
    (hOther : dh.stream ≠ some id') :
    dh.Intact (calls ++ [.free id']) := by
  have hne : ∀ id, dh.stream = some id → id' ≠ id := by
    rintro id hId rfl
    exact hOther hId
  refine h.other (fun id hId hLive => (live_free id').mpr ⟨hne id hId, hLive⟩)
    fun id fromClient hId => ?_
  rw [received_free, if_neg (hne id hId)]

theorem Separate.write (h : Separate calls chain) (hGet : chain[i]? = some dh)
    (hNew : dh'.Intact calls')
    (hOthers : ∀ k dhk, k ≠ i → chain[k]? = some dhk → dhk.Intact calls')
    (hHeld : ∀ id, Live id calls' → dh'.stream = some id ∨ ∃ k, k ≠ i ∧
    streamAt chain k = some id)
    (hUnique : ∀ id, dh'.stream = some id → ∀ k, k ≠ i → streamAt chain k ≠ some id) :
    Separate calls' (chain.set i dh') := by
  have hi := (List.getElem?_eq_some_iff.mp hGet).1
  have hSelf : streamAt (chain.set i dh') i = dh'.stream := by
    rw [streamAt, List.getElem?_set_self hi]
    rfl
  have hElse : ∀ k, k ≠ i → streamAt (chain.set i dh') k = streamAt chain k := by
    intro k hk
    rw [streamAt, List.getElem?_set_ne (Ne.symm hk)]
    rfl
  refine ⟨by simpa using h.nonempty, fun k dhk hk => ?_, fun id hLive =>
    ?_, fun j k id hj hk => ?_⟩
  · by_cases hki : k = i
    · subst hki
      rw [List.getElem?_set_self hi] at hk
      exact Option.some.inj hk ▸ hNew
    · rw [List.getElem?_set_ne (Ne.symm hki)] at hk
      exact hOthers k dhk hki hk
  · rcases hHeld id hLive with hHere | ⟨k, hki, hk⟩
    · exact ⟨i, hSelf.trans hHere⟩
    · exact ⟨k, (hElse k hki).trans hk⟩
  · by_cases hji : j = i
    · by_cases hki : k = i
      · rw [hji, hki]
      · rw [hji, hSelf] at hj
        rw [hElse k hki] at hk
        exact absurd hk (hUnique id hj k hki)
    · rw [hElse j hji] at hj
      by_cases hki : k = i
      · rw [hki, hSelf] at hk
        exact absurd hj (hUnique id hk j hji)
      · rw [hElse k hki] at hk
        exact h.unique j k id hj hk

theorem DataHead.Intact.receive (h : dh.Intact calls) (hId : dh.stream = some a.id) :
    (Stream.receive (gzipCode m malloc) dh ds fromClient).Intact
      (calls ++ [.insert a ds fromClient malloc']) := by
  have hUsed : dh.aTcp ≠ none := by
    intro hNone
    simp [DataHead.stream, hNone] at hId
  have hStream : ∀ id, (Stream.receive (gzipCode m malloc) dh ds fromClient).stream = some id →
      id = a.id := by
    intro id hId'
    rw [receive_stream, hId] at hId'
    exact (Option.some.inj hId').symm
  have hUsed' : (Stream.receive (gzipCode m malloc) dh ds fromClient).aTcp ≠ none := by
    intro hNone
    have hStream' := receive_stream (gzipCode m malloc) dh ds fromClient
    rw [hId, DataHead.stream, hNone] at hStream'
    cases hStream'
  cases fromClient with
  | true =>
    refine ⟨fun hNone => absurd hNone hUsed', fun id hId' =>
      live_insert.mpr (Or.inl (hStream id hId').symm),
      fun id hId' => ?_, fun id hId' => ?_, fun _ t ht => ?_, fun _ => h.currentBlock hUsed⟩
    · rw [hStream id hId', received_insert, if_pos ⟨rfl, rfl⟩, ← h.up a.id hId]
      rfl
    · rw [hStream id hId', received_insert, if_neg (by simp), ← h.down a.id hId]
      rfl
    · exact Nat.lt_of_lt_of_le (h.tempUp hUsed t ht) (by simp [Stream.receive, appendUp])
  | false =>
    obtain ⟨hUp, hDown, hTempUp⟩ :=
      processGzipData_spec m malloc { dh with down := dh.down ++ [ds] }
    have hReceive : Stream.receive (gzipCode m malloc) dh ds false =
        processGzipData (gzipCode m malloc) { dh with down := dh.down ++ [ds] } := rfl
    refine ⟨fun hNone => absurd hNone hUsed', fun id hId' =>
      live_insert.mpr (Or.inl (hStream id hId').symm),
      fun id hId' => ?_, fun id hId' => ?_, fun _ t ht => ?_, fun _ c hc => ?_⟩
    · rw [hStream id hId', received_insert, if_neg (by simp), ← h.up a.id hId, hReceive, hUp]
    · rw [hStream id hId', received_insert, if_pos ⟨rfl, rfl⟩, ← h.down a.id hId,
        hReceive, hDown]
    · rw [hReceive, hTempUp] at ht
      rw [hReceive, hUp]
      exact h.tempUp hUsed t ht
    · rw [hReceive] at hc ⊢
      rw [hDown]
      refine (processGzipData_gzip m malloc _ (Nat.le_refl _) fun c hc => ?_).1 c hc
      exact Nat.lt_of_lt_of_le (h.currentBlock hUsed c hc) (by simp)

/-- A head that has been taken for a new stream, with its first segment. -/
theorem DataHead.Intact.first (hId : dh.stream = some a.id) (hLive : ¬Live a.id calls)
    (hUp : dh.up = if fromClient then [ds] else [])
    (hDown : dh.down = if fromClient then [] else [ds]) (hTempUp : dh.tempUp = none)
    (hBlock : ∀ c, dh.gzip.currentBlock = some c → c < dh.down.length) :
    dh.Intact (calls ++ [.insert a ds fromClient malloc]) := by
  have hUsed : dh.aTcp ≠ none := by
    intro hNone
    simp [DataHead.stream, hNone] at hId
  have hStream : ∀ id, dh.stream = some id → id = a.id := by
    intro id hId'
    rw [hId] at hId'
    exact (Option.some.inj hId').symm
  refine ⟨fun hNone => absurd hNone hUsed, fun id hId' =>
    live_insert.mpr (Or.inl (hStream id hId').symm),
    fun id hId' => ?_, fun id hId' => ?_, fun _ t ht => ?_, fun _ => hBlock⟩
  · rw [hStream id hId', received_insert, received_of_not_live hLive, hUp]
    cases fromClient <;> simp
  · rw [hStream id hId', received_insert, received_of_not_live hLive, hDown]
    cases fromClient <;> simp
  · rw [hTempUp] at ht
    cases ht

theorem allocateHead_stream {G : Type} (code : GzipCode G) (dh : DataHead G) (fromClient : Bool) :
    (allocateHead code dh fromClient).stream = dh.stream := by
  unfold allocateHead
  cases fromClient with
  | true => rfl
  | false =>
    simp only [Bool.false_eq_true, if_false, processGzipData_stream]
    rfl

theorem DataHead.Intact.allocate (h : dh.Intact calls) :
    (allocateHead (gzipCode m malloc) dh fromClient).Intact calls := by
  have hAllocated :
      ({ dh with gzip := (gzipCode m malloc).allocate dh.gzip } : DataHead Gzip).Intact calls :=
    ⟨h.free, h.live, h.up, h.down, h.tempUp, h.currentBlock⟩
  unfold allocateHead
  cases fromClient with
  | true => exact hAllocated
  | false =>
    simp only [Bool.false_eq_true, if_false]
    generalize ({ dh with gzip := (gzipCode m malloc).allocate dh.gzip } : DataHead Gzip) = dh'
      at hAllocated ⊢
    obtain ⟨hUp, hDown, hTempUp⟩ := processGzipData_spec m malloc dh'
    have hStream := processGzipData_stream (gzipCode m malloc) dh'
    have hUsed : (processGzipData (gzipCode m malloc) dh').aTcp ≠ none → dh'.aTcp ≠ none := by
      intro hUsed hNone
      rw [DataHead.stream, DataHead.stream, hNone] at hStream
      exact hUsed (Option.map_eq_none_iff.mp hStream)
    refine ⟨fun hNone => ?_, fun id hId => hAllocated.live id (hStream ▸ hId), fun id hId => ?_,
      fun id hId => ?_, fun hSome t ht => ?_, fun hSome c hc => ?_⟩
    · rw [hUp, hDown]
      refine hAllocated.free ?_
      rw [DataHead.stream, DataHead.stream, hNone] at hStream
      exact Option.map_eq_none_iff.mp hStream.symm
    · rw [hUp]
      exact hAllocated.up id (hStream ▸ hId)
    · rw [hDown]
      exact hAllocated.down id (hStream ▸ hId)
    · rw [hTempUp] at ht
      rw [hUp]
      exact hAllocated.tempUp (hUsed hSome) t ht
    · rw [hDown]
      exact (processGzipData_gzip m malloc _ (Nat.le_refl _)
        (hAllocated.currentBlock (hUsed hSome))).1 c hc

theorem not_live_of_not_held (h : Separate calls chain)
    (hNone : ∀ dh ∈ chain, dh.stream ≠ some id) : ¬Live id calls := by
  intro hLive
  obtain ⟨k, hk⟩ := h.held id hLive
  obtain ⟨dh, hGet, hId⟩ := Option.bind_eq_some_iff.mp hk
  exact hNone dh (List.mem_of_getElem? hGet) hId

theorem not_streamAt {G : Type} {chain : List (DataHead G)} {id : Nat}
    (hNone : ∀ dh ∈ chain, dh.stream ≠ some id) (k : Nat) :
    streamAt chain k ≠ some id := by
  intro hk
  obtain ⟨dh, hGet, hId⟩ := Option.bind_eq_some_iff.mp hk
  exact hNone dh (List.mem_of_getElem? hGet) hId

theorem reuseHead_stream {G : Type} (code : GzipCode G) (dh : DataHead G) (a : TcpStream)
    (ds : Segment) (fromClient : Bool) : (reuseHead code dh a ds fromClient).stream =
    some a.id := by
  unfold reuseHead
  cases fromClient with
  | true => rfl
  | false =>
    simp only [Bool.false_eq_true, if_false, processGzipData_stream]
    rfl

theorem DataHead.Intact.reuse (h : dh.Intact calls) (hFree : dh.aTcp = none)
    (hLive : ¬Live a.id calls) :
    (reuseHead (gzipCode m malloc) dh a ds fromClient).Intact
      (calls ++ [.insert a ds fromClient malloc']) := by
  obtain ⟨hUp, hDown⟩ := h.free hFree
  cases fromClient with
  | true =>
    refine DataHead.Intact.first (reuseHead_stream ..) hLive rfl hDown rfl fun c hc => ?_
    cases hc
  | false =>
    let taken : DataHead Gzip :=
      { dh with gzip := (gzipCode m malloc).reuse dh.gzip, tempUp := none, offsetUp := 0,
                aTcp := some a, down := [ds] }
    have hReuse : reuseHead (gzipCode m malloc) dh a ds false =
        processGzipData (gzipCode m malloc) taken := rfl
    obtain ⟨hUp', hDown', hTempUp'⟩ := processGzipData_spec m malloc taken
    have hBlock := (processGzipData_gzip m malloc taken (Nat.le_refl _) nofun).1
    rw [hReuse]
    refine DataHead.Intact.first (hReuse ▸ reuseHead_stream ..) hLive
      (hUp'.trans hUp) hDown' hTempUp' ?_
    rw [hDown']
    exact hBlock

theorem Separate.append (h : ∀ (k : Nat) (dh : DataHead Gzip), chain[k]? = some dh →
    dh.Intact calls')
    (hUnique : ∀ i j id, streamAt chain i = some id → streamAt chain j = some id → i = j)
    (hHeld : ∀ id, Live id calls' → id = a.id ∨ ∃ k, streamAt chain k = some id)
    (hNone : ∀ k, streamAt chain k ≠ some a.id) (hId : dh'.stream = some a.id)
    (hNew : dh'.Intact calls') : Separate calls' (chain ++ [dh']) := by
  have hOld : ∀ k, k < chain.length → streamAt (chain ++ [dh']) k = streamAt chain k := by
    intro k hk
    rw [streamAt, List.getElem?_append_left hk]
    rfl
  have hLast : streamAt (chain ++ [dh']) chain.length = some a.id := by
    rw [streamAt, List.getElem?_append_right (Nat.le_refl _), Nat.sub_self]
    exact hId
  have hCases : ∀ k id, streamAt (chain ++ [dh']) k = some id →
      (k < chain.length ∧ streamAt chain k = some id) ∨ (k = chain.length ∧ id = a.id) := by
    intro k id hk
    rcases Nat.lt_trichotomy k chain.length with hLt | hEq | hGt
    · exact Or.inl ⟨hLt, (hOld k hLt).symm.trans hk⟩
    · rw [hEq, hLast] at hk
      exact Or.inr ⟨hEq, (Option.some.inj hk).symm⟩
    · rw [streamAt, List.getElem?_eq_none (by simp; omega)] at hk
      cases hk
  refine ⟨by simp, fun k dhk hk => ?_, fun id hLive => ?_, fun i j id hi hj => ?_⟩
  · by_cases hLt : k < chain.length
    · rw [List.getElem?_append_left hLt] at hk
      exact h k dhk hk
    · rw [List.getElem?_append_right (by omega), List.getElem?_singleton] at hk
      split at hk
      · exact Option.some.inj hk ▸ hNew
      · cases hk
  · rcases hHeld id hLive with rfl | ⟨k, hk⟩
    · exact ⟨_, hLast⟩
    · obtain ⟨dhk, hGet, -⟩ := Option.bind_eq_some_iff.mp hk
      exact ⟨k, (hOld k (List.getElem?_eq_some_iff.mp hGet).1).trans hk⟩
  · rcases hCases i id hi with ⟨-, hi⟩ | ⟨rfl, rfl⟩ <;>
      rcases hCases j _ hj with ⟨-, hj⟩ | ⟨rfl, hIdj⟩
    · exact hUnique i j id hi hj
    · exact absurd (hIdj ▸ hi) (hNone i)
    · exact absurd hj (hNone j)
    · rfl

/-- `insert_new_data_segment` keeps the streams apart. -/
theorem Separate.insert (h : Separate calls chain) :
    ∃ chain', insertNewDataSegment (gzipCode m malloc) chain a ds fromClient = some chain' ∧
      Separate (calls ++ [.insert a ds fromClient malloc]) chain' := by
  obtain ⟨dh, hGet, ⟨hId, hRun⟩ | ⟨hNone, hFree, hRun⟩ | ⟨hNone, hUsed, hRun⟩⟩ :=
    insertNewDataSegment_cases (gzipCode m malloc) a ds fromClient
      h.nonempty
  · -- the head holds the stream
    have hAt : streamAt chain (findStream a.id chain) = some a.id := by
      rw [streamAt, hGet]
      exact hId
    refine ⟨_, hRun, h.write hGet ((h.intact _ _ hGet).receive hId) (fun k dhk hk hGetk => ?_)
      (fun id hLive => ?_) fun id hId' k hk hk' => ?_⟩
    · refine (h.intact k dhk hGetk).insert_other fun hIdk => hk (h.unique k _ a.id ?_ hAt)
      rw [streamAt, hGetk]
      exact hIdk
    · rw [receive_stream, hId]
      rcases live_insert.mp hLive with rfl | hLive
      · exact Or.inl rfl
      · obtain ⟨k, hk⟩ := h.held id hLive
        by_cases hki : k = findStream a.id chain
        · exact Or.inl (hAt.symm.trans (hki ▸ hk))
        · exact Or.inr ⟨k, hki, hk⟩
    · rw [receive_stream, hId] at hId'
      exact hk (h.unique k _ id hk' (hAt.trans hId'))
  · -- the head is free
    refine ⟨_, hRun, h.write hGet ((h.intact _ _ hGet).reuse hFree (not_live_of_not_held h hNone))
      (fun k dhk _ hGetk =>
        (h.intact k dhk hGetk).insert_other (hNone dhk (List.mem_of_getElem? hGetk)))
      (fun id hLive => ?_) fun id hId' k _ => ?_⟩
    · rw [reuseHead_stream]
      rcases live_insert.mp hLive with rfl | hLive
      · exact Or.inl rfl
      · obtain ⟨k, hk⟩ := h.held id hLive
        refine Or.inr ⟨k, fun hki => ?_, hk⟩
        rw [hki, streamAt, hGet] at hk
        simp [DataHead.stream, hFree] at hk
    · rw [reuseHead_stream] at hId'
      exact Option.some.inj hId' ▸ not_streamAt hNone k
  · -- no head is free, and a new one is made
    generalize hTail : allocateHead (gzipCode m malloc) dh fromClient = tail at hRun
    have hStream : tail.stream = dh.stream := hTail ▸ allocateHead_stream ..
    have hTailIntact : tail.Intact calls := hTail ▸ (h.intact _ _ hGet).allocate
    have hSet := fun k => set_stream hGet hStream k
    have hIntact : ∀ (k : Nat) (dhk : DataHead Gzip),
        (chain.set (findStream a.id chain) tail)[k]? = some dhk →
          dhk.Intact (calls ++ [.insert a ds fromClient malloc]) := by
      intro k dhk hk
      by_cases hki : k = findStream a.id chain
      · rw [hki, List.getElem?_set_self (List.getElem?_eq_some_iff.mp hGet).1] at hk
        rw [← Option.some.inj hk]
        refine hTailIntact.insert_other ?_
        rw [hStream]
        exact hNone dh (List.mem_of_getElem? hGet)
      · rw [List.getElem?_set_ne (Ne.symm hki)] at hk
        exact (h.intact k dhk hk).insert_other (hNone dhk (List.mem_of_getElem? hk))
    refine ⟨_, hRun, Separate.append (a := a) hIntact (fun i j id hi hj => ?_)
      (fun id hLive => ?_)
      (fun k hk => not_streamAt hNone k ((hSet k).symm.trans hk)) rfl ?_⟩
    · exact h.unique i j id ((hSet i).symm.trans hi) ((hSet j).symm.trans hj)
    · rcases live_insert.mp hLive with rfl | hLive
      · exact Or.inl rfl
      · obtain ⟨k, hk⟩ := h.held id hLive
        exact Or.inr ⟨k, (hSet k).trans hk⟩
    · refine DataHead.Intact.first rfl (not_live_of_not_held h hNone) rfl rfl rfl fun c hc => ?_
      cases hc

/-- `free_data_stream` keeps the streams apart. -/
theorem Separate.free (h : Separate calls chain) (id' : Nat) :
    Separate (calls ++ [.free id']) (freeDataStream chain id') := by
  obtain ⟨dh, hGet, hCase⟩ := findStream_spec id' chain h.nonempty
  by_cases hId : dh.stream = some id'
  · have hAt : streamAt chain (findStream id' chain) = some id' := by
      rw [streamAt, hGet]
      exact hId
    have hFree : freeDataStream chain id' = chain.set (findStream id' chain)
        { dh with aTcp := none, up := [], offsetUp := 0, down := [] } := by
      simp only [freeDataStream, hGet, if_pos hId]
    rw [hFree]
    refine h.write hGet ⟨fun _ => ⟨rfl, rfl⟩, ?_, ?_, ?_, fun hUsed => absurd rfl hUsed,
      fun hUsed => absurd rfl hUsed⟩ (fun k dhk hk hGetk => ?_) (fun id hLive => ?_) ?_
    · intro id hNone
      cases hNone
    · intro id hNone
      cases hNone
    · intro id hNone
      cases hNone
    · refine (h.intact k dhk hGetk).free_other fun hIdk => hk (h.unique k _ id' ?_ hAt)
      rw [streamAt, hGetk]
      exact hIdk
    · obtain ⟨hne, hLive⟩ := (live_free id').mp hLive
      obtain ⟨k, hk⟩ := h.held id hLive
      refine Or.inr ⟨k, fun hki => hne ?_, hk⟩
      rw [hki, hAt] at hk
      exact Option.some.inj hk
    · intro id hNone
      cases hNone
  · have hNone : ∀ dh' ∈ chain, dh'.stream ≠ some id' := (hCase.resolve_left hId).1
    have hSame : freeDataStream chain id' = chain := by
      simp only [freeDataStream, hGet, if_neg hId]
    rw [hSame]
    exact ⟨h.nonempty, fun k dhk hk =>
        (h.intact k dhk hk).free_other (hNone dhk (List.mem_of_getElem? hk)),
      fun id hLive => h.held id ((live_free id').mp hLive).2, h.unique⟩

end Step

/-- A bucket that is zero at the start holds each stream that has received a segment since it was
last freed in exactly one head, with the segments of each direction in the order of their arrival;
and the pointers into the lists of a head that is in use are `NULL` or point into them. -/
theorem store_keeps_streams (m : Machine) (calls : List StoreCall) :
    ∃ chain, calls.foldlM (StoreCall.run m) [DataHead.zero] = some chain ∧
      (∀ id, Live id calls → ∃ (k : Nat) (dh : DataHead Gzip), chain[k]? = some dh ∧
        dh.stream = some id ∧
        dh.up = received id true calls ∧ dh.down = received id false calls ∧
        ∀ (j : Nat) (dh' : DataHead Gzip), chain[j]? = some dh' → j ≠ k →
          dh'.aTcp = none ∨ dh'.stream ≠ some id) ∧
      ∀ dh ∈ chain, dh.aTcp ≠ none → (∀ t, dh.tempUp = some t → t < dh.up.length) ∧
        ∀ c, dh.gzip.currentBlock = some c → c < dh.down.length := by
  have hStart : Separate [] [DataHead.zero] := by
    refine ⟨by simp, fun k dh hk => ?_, fun id hLive => ?_, fun i j id hi hj => ?_⟩
    · rw [List.getElem?_singleton] at hk
      split at hk
      · obtain rfl := Option.some.inj hk
        exact ⟨fun _ => ⟨rfl, rfl⟩, nofun, nofun, nofun, fun hUsed => absurd rfl hUsed,
          fun hUsed => absurd rfl hUsed⟩
      · cases hk
    · rcases hLive with hLive | hLive <;> exact absurd rfl hLive
    · rw [streamAt, List.getElem?_singleton] at hi
      split at hi <;> cases hi
  obtain ⟨chain, hRun, h⟩ := foldlM_invariant (StoreCall.run m) Separate calls hStart
    fun done call rest _ chain h => by
      cases call with
      | insert a ds fromClient malloc => exact h.insert
      | free id => exact ⟨_, rfl, h.free id⟩
  refine ⟨chain, hRun, fun id hLive => ?_, fun dh hMem hUsed => ?_⟩
  · obtain ⟨k, hk⟩ := h.held id hLive
    obtain ⟨dh, hGet, hId⟩ := Option.bind_eq_some_iff.mp hk
    refine ⟨k, dh, hGet, hId, (h.intact k dh hGet).up id hId,
      (h.intact k dh hGet).down id hId, ?_⟩
    intro j dh' hGet' hne
    refine Or.inr fun hId' => hne (h.unique j k id ?_ hk)
    rw [streamAt, hGet']
    exact hId'
  · obtain ⟨k, hGet⟩ := List.mem_iff_getElem?.mp hMem
    exact ⟨(h.intact k dh hGet).tempUp hUsed, (h.intact k dh hGet).currentBlock hUsed⟩

/-! ### Other streams -/

/-- A segment of the stream `id` changes no head of another stream, and the down-stream processing
is that of the head of `id`, with the segment. -/
structure Isolated (code : GzipCode Gzip) (chain chain' : List (DataHead Gzip)) (id : Nat)
    (ds : Segment) (fromClient : Bool) : Prop where
  others : ∀ (k : Nat) (dh : DataHead Gzip) (other : Nat), chain[k]? = some dh →
    dh.stream = some other → other ≠ id → chain'[k]? = some dh
  processed : fromClient = false → ∃ (k : Nat) (dh : DataHead Gzip), dh.stream = some id ∧
    dh.down.getLast? = some ds ∧ chain'[k]? = some (processGzipData code dh)

/-- A write of a head that holds the stream or none changes no head of another stream. -/
theorem set_others {chain : List (DataHead Gzip)} {dh dh' : DataHead Gzip} {i id : Nat}
    (hGet : chain[i]? = some dh) (hId : dh.stream = some id ∨ dh.aTcp = none) (k : Nat)
    (dhk : DataHead Gzip) (other : Nat) (hGetk : chain[k]? = some dhk)
    (hOther : dhk.stream = some other) (hne : other ≠ id) : (chain.set i dh')[k]? = some dhk := by
  have hki : k ≠ i := by
    rintro rfl
    rw [hGet] at hGetk
    obtain rfl := Option.some.inj hGetk
    rcases hId with hId | hNone
    · exact hne (Option.some.inj (hOther.symm.trans hId))
    · simp [DataHead.stream, hNone] at hOther
  rw [List.getElem?_set_ne (Ne.symm hki), hGetk]

/-- Where the last branch of `insert_new_data_segment` leaves the buffer. -/
theorem allocateHead_distBuf (m : Machine) (malloc : Malloc) (dh : DataHead Gzip)
    (fromClient : Bool) :
    (allocateHead (gzipCode m malloc) dh fromClient).gzip.distBuf.map Buffer.address =
      some malloc.distBuf.address := by
  unfold allocateHead
  cases fromClient with
  | true => rfl
  | false =>
    have hBound : ∀ c, dh.gzip.currentBlock = some c →
        c < max dh.down.length (dh.gzip.currentBlock.getD 0 + 1) := by
      intro c hc
      rw [hc, Option.getD_some]
      omega
    exact (processGzipData_gzip m malloc
      { dh with gzip := (gzipCode m malloc).allocate dh.gzip } (Nat.le_max_left _ _) hBound).2

/-- `insert_new_data_segment` leaves the other streams alone exactly when the chain has a head of
the stream or a free one: else it gives the buffers for the new head to the last head, and processes
that. -/
theorem insert_isolated (m : Machine) (malloc : Malloc) (first : DataHead Gzip)
    (rest : List (DataHead Gzip)) (a : TcpStream) (ds : Segment) (fromClient : Bool)
    (hMalloc : ∀ dh ∈ first :: rest,
      dh.gzip.distBuf.map Buffer.address ≠ some malloc.distBuf.address) :
    (∃ chain', insertNewDataSegment (gzipCode m malloc) (first :: rest) a ds fromClient =
        some chain' ∧
      Isolated (gzipCode m malloc) (first :: rest) chain' a.id ds fromClient) ↔
    ∃ dh ∈ first :: rest, dh.stream = some a.id ∨ dh.aTcp = none := by
  obtain ⟨dh, hGet, hCase⟩ := insertNewDataSegment_cases (gzipCode m malloc) a ds
    fromClient (List.cons_ne_nil first rest)
  generalize first :: rest = chain at hMalloc hGet hCase ⊢
  have hMem := List.mem_of_getElem? hGet
  have hi := (List.getElem?_eq_some_iff.mp hGet).1
  rcases hCase with ⟨hId, hRun⟩ | ⟨hNone, hFree, hRun⟩ | ⟨hNone, hUsed, hRun⟩
  · -- the head holds the stream
    refine iff_of_true ⟨_, hRun, set_others hGet (Or.inl hId), ?_⟩ ⟨dh, hMem, Or.inl hId⟩
    rintro rfl
    exact ⟨_, { dh with down := dh.down ++ [ds] }, hId, List.getLast?_concat,
      List.getElem?_set_self hi⟩
  · -- the head is free
    refine iff_of_true ⟨_, hRun, set_others hGet (Or.inr hFree), ?_⟩
      ⟨dh, hMem, Or.inr hFree⟩
    rintro rfl
    exact ⟨_, { dh with gzip := (gzipCode m malloc).reuse dh.gzip, tempUp := none, offsetUp := 0,
                        aTcp := some a, down := [ds] }, rfl, rfl, List.getElem?_set_self hi⟩
  · -- the last head gets the buffers
    refine iff_of_false ?_ ?_
    · rintro ⟨chain', hRun', hIsolated⟩
      obtain rfl := Option.some.inj (hRun.symm.trans hRun')
      obtain ⟨b, hb⟩ := Option.ne_none_iff_exists'.mp (hUsed dh hMem)
      have hStream : dh.stream = some b.id := by rw [DataHead.stream, hb]; rfl
      have hOther : b.id ≠ a.id := fun hSame => hNone dh hMem (hSame ▸ hStream)
      have hSame := hIsolated.others _ dh b.id hGet hStream hOther
      rw [List.getElem?_append_left (by simpa using hi), List.getElem?_set_self hi] at hSame
      apply hMalloc dh hMem
      rw [← Option.some.inj hSame]
      exact allocateHead_distBuf m malloc dh fromClient
    · rintro ⟨dh', hMem', hId | hFree⟩
      · exact hNone dh' hMem' hId
      · exact hUsed dh' hMem' hFree

/-- Buffers at the two addresses. -/
def mallocAt (dist litter : Nat) : Malloc := ⟨⟨dist, fun _ => 0⟩, ⟨litter, fun _ => 0⟩⟩

/-- A head of stream 1 that has received a segment. -/
def busy : DataHead Gzip :=
  { DataHead.zero with
      aTcp := some ⟨1, 0⟩, up := [[71]],
      gzip := { Gzip.zero with distBuf := some (mallocAt 1 2).distBuf,
                               litterBuf := some (mallocAt 1 2).litterBuf } }

/-- Stream 2 takes the free head. -/
theorem insert_isolated_free :
    ∃ chain', insertNewDataSegment (gzipCode Gunzip.quiet (mallocAt 3 4)) [DataHead.zero, busy]
        ⟨2, 0⟩ [72] true = some chain' ∧
      Isolated (gzipCode Gunzip.quiet (mallocAt 3 4)) [DataHead.zero, busy] chain' 2 [72] true := by
  refine (insert_isolated Gunzip.quiet (mallocAt 3 4) DataHead.zero [busy] ⟨2, 0⟩
    [72] true ?_).mpr
    ⟨DataHead.zero, by simp, Or.inr rfl⟩
  intro dh hMem
  rcases List.mem_pair.mp hMem with rfl | rfl
  · exact nofun
  · exact fun h => absurd (Option.some.inj h) (by decide)

/-- A new head for stream 2: the buffers go to the head of stream 1. -/
theorem insert_not_isolated :
    ¬∃ chain', insertNewDataSegment (gzipCode Gunzip.quiet (mallocAt 3 4)) [busy]
      ⟨2, 0⟩ [72] true =
        some chain' ∧
      Isolated (gzipCode Gunzip.quiet (mallocAt 3 4)) [busy] chain' 2 [72] true := by
  rintro ⟨chain', hRun, hIsolated⟩
  obtain rfl := Option.some.inj hRun
  have hSame := Option.some.inj (hIsolated.others 0 busy 1 rfl rfl (by decide))
  have hAddress := congrArg (fun dh : DataHead Gzip => dh.gzip.distBuf.map Buffer.address) hSame
  exact absurd (Option.some.inj hAddress) (by decide)

end Shutter.Stream
