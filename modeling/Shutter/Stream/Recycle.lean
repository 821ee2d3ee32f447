import Shutter.Gunzip.Alike
import Shutter.Stream.Store

/-! A head that `free_data_stream` has left, and one that is zero.  `free_data_stream` and the reuse
branch of `insert_new_data_segment` reset a part of the fields only. -/

namespace Shutter.Stream

open Shutter.Gunzip (Buffer Cleared Gzip Machine Resembles SameParser SameCounters State quiet)
open Shutter.Library

/-! ### The same processing -/

/-- What `process_gzip_data` would find in the head, in the lists and in the stream is the same, but
for what may be left of an earlier stream. -/
structure Like (c : Cleared) (dh dh' : DataHead Gzip) : Prop where
  head : dh' = { dh with gzip := dh'.gzip }
  parser : SameParser c dh.gzip dh'.gzip
  tokens : dh.aTcp ≠ none → SameCounters dh.gzip dh'.gzip

/-- The two chains are the same but for the head at index `i`. -/
def LikeAt (i : Nat) (c : Cleared) (chain chain' : List (DataHead Gzip)) : Prop :=
  ∃ dh dh', chain[i]? = some dh ∧ chain' = chain.set i dh' ∧ Like c dh dh'

/-- The fields that are `memset`, with the memory that `malloc` returns for the buffers. -/
def zeroed (g : Gzip) : Gzip := { Gzip.zero with litterBuf := g.litterBuf, distBuf := g.distBuf }

/-- The head at index `i` is a zeroed one. -/
def zeroAt (i : Nat) (chain : List (DataHead Gzip)) : List (DataHead Gzip) :=
  chain.modify i fun dh => { dh with gzip := zeroed dh.gzip }

/-- The head that has got the segment, before `process_gzip_data` works on it. -/
def arrived (code : GzipCode Gzip) (dh : DataHead Gzip) (a : TcpStream) (ds : Segment)
    (fromClient : Bool) : DataHead Gzip :=
  if dh.stream = some a.id then
    if fromClient then appendUp dh ds else { dh with down := dh.down ++ [ds] }
  else if dh.aTcp.isNone then
    { dh with gzip := code.reuse dh.gzip, tempUp := none, offsetUp := 0, aTcp := some a,
              up := if fromClient then [ds] else dh.up,
              down := if fromClient then dh.down else [ds] }
  else { dh with gzip := code.allocate dh.gzip }

/-- `process_gzip_data` returns on the head, if it is called. -/
def DataHead.Returns (m : Machine) (dh : DataHead Gzip) : Prop :=
  ∀ a, dh.aTcp = some a → m.Returns dh.down dh.gzip a.gkState

/-- The call returns. -/
def StoreCall.Returns (m : Machine) (chain : List (DataHead Gzip)) : StoreCall → Prop
  | .insert a ds fromClient malloc => fromClient = false →
    ∀ dh ∈ chain[findStream a.id chain]?, (arrived (gzipCode m malloc) dh a ds false).Returns m
  | .free _ => True

/-- The run that the calls make from the chain, as far as it is defined. -/
def runs (m : Machine) (chain : List (DataHead Gzip)) (calls : List StoreCall) :
    Option (List (DataHead Gzip)) := calls.foldlM (StoreCall.run m) chain

/-- The state in which the call finds the head at index `i`, if `process_gzip_data` works on it. -/
def StoreCall.work (m : Machine) (i : Nat) (chain : List (DataHead Gzip)) :
    StoreCall → Option State
  | .insert a ds false malloc =>
    if findStream a.id chain = i then
      chain[i]?.bind fun dh =>
        let dh := arrived (gzipCode m malloc) dh a ds false
        dh.aTcp.map fun b => State.start dh.down dh.gzip b.gkState
    else none
  | _ => none

/-- What the call clears in the head at index `i`. -/
def StoreCall.clears (m : Machine) (i : Nat) (chain : List (DataHead Gzip)) (c : Cleared)
    (call : StoreCall) : Cleared := c.behind m ((call.work m i chain).bind State.startBlock)

/-- What the calls of a run clear in the head at index `i`. -/
def clearedBy (m : Machine) (i : Nat) : List (DataHead Gzip) → Cleared →
    List StoreCall → Cleared
  | _, c, [] => c
  | chain, c, call :: calls =>
    match call.run m chain with
    | some chain₁ => clearedBy m i chain₁ (call.clears m i chain c) calls
    | none => c

/-- A step that the condition allows: a block without a header that `process_gzip_data` works on in
the head at index `i` does not read what is left of an earlier stream; and the call returns. -/
def StoreCall.Allowed (m : Machine) (i : Nat) (live : Prop) (c : Cleared)
    (chain : List (DataHead Gzip)) (call : StoreCall) : Prop :=
  (∀ s ∈ call.work m i chain, s.Fits live c m) ∧ call.Returns m chain

/-- Each call of the run is allowed in the chain before it. -/
def Throughout (m : Machine) (i : Nat) (live : Prop) (c : Cleared) (chain : List (DataHead Gzip))
    (calls : List StoreCall) : Prop :=
  ∀ done call rest chain₁, calls = done ++ call :: rest →
    runs m chain done = some chain₁ →
    call.Allowed m i live (clearedBy m i chain c done) chain₁

/-! ### The relation between the heads -/

/-- The fields that the reuse branch resets. -/
def reset (g : Gzip) : Gzip := { g with lit := 0, dist := 0, currentBlock := none }

/-- The heads, of which a free one will be reset. -/
structure Matched (live : Prop) (c : Cleared) (dh dh' : DataHead Gzip) : Prop where
  head : dh' = { dh with gzip := dh'.gzip }
  reset : Resembles live c (reset dh.gzip) (reset dh'.gzip)
  used : dh.aTcp ≠ none → Resembles live c dh.gzip dh'.gzip

section Heads

variable {live : Prop} {c : Cleared} {m : Machine} {malloc : Malloc} {dh dh' : DataHead Gzip}
  {g g' : Gzip} {a : TcpStream} {ds : Segment} {fromClient : Bool}

theorem resembles_reset (h : Resembles live c g g') : Resembles live c (reset g) (reset g') := by
  rcases h with ⟨head, length, uchunkFlag, rfl, h⟩ |
    ⟨head, http, text, gzip, uchunkFlag, chunk, size, length, rfl, h⟩
  · exact Or.inl ⟨head, length, uchunkFlag, rfl, h⟩
  · exact Or.inr ⟨head, http, text, gzip, uchunkFlag, chunk, size, length, rfl, h⟩

theorem resembles_buffers (h : Resembles live c g g') (distBuf : Option (Buffer Nat))
    (litterBuf : Option (Buffer UInt8)) :
    Resembles live c { g with distBuf, litterBuf } { g' with distBuf, litterBuf } := by
  rcases h with ⟨head, length, uchunkFlag, rfl, h⟩ |
    ⟨head, http, text, gzip, uchunkFlag, chunk, size, length, rfl, h⟩
  · exact Or.inl ⟨head, length, uchunkFlag, rfl, h⟩
  · exact Or.inr ⟨head, http, text, gzip, uchunkFlag, chunk, size, length, rfl, h⟩

theorem resembles_reuse (m : Machine) (malloc : Malloc)
    (h : Resembles live c (reset g) (reset g')) :
    Resembles live c ((gzipCode m malloc).reuse g) ((gzipCode m malloc).reuse g') := by
  have hLitter : g'.litterBuf = g.litterBuf := h.sameParser.litterBuf
  have hDist : g'.distBuf = g.distBuf := h.sameParser.distBuf
  show Resembles live c
    { reset g with
        distBuf := g.distBuf <|> some malloc.distBuf
        litterBuf := g.litterBuf <|> some malloc.litterBuf }
    { reset g' with
        distBuf := g'.distBuf <|> some malloc.distBuf
        litterBuf := g'.litterBuf <|> some malloc.litterBuf }
  rw [hLitter, hDist]
  exact resembles_buffers h _ _

theorem Matched.of_used (hHead : dh' = { dh with gzip := dh'.gzip })
    (h : Resembles live c dh.gzip dh'.gzip) : Matched live c dh dh' :=
  ⟨hHead, resembles_reset h, fun _ => h⟩

theorem Matched.process (malloc : Malloc) (h : Matched live c dh dh') (hUsed : dh.aTcp = some a)
    (hFits : (State.start dh.down dh.gzip a.gkState).Fits live c m)
    (hReturns : m.Returns dh.down dh.gzip a.gkState) :
    Matched live (c.behind m (State.start dh.down dh.gzip a.gkState).startBlock)
      (processGzipData (gzipCode m malloc) dh) (processGzipData (gzipCode m malloc) dh') := by
  obtain ⟨aTcp, up, tempUp, offsetUp, down, g⟩ := dh
  obtain ⟨hHead, -, hResembles⟩ := h
  obtain rfl : aTcp = some a := hUsed
  have hSame := hResembles nofun
  generalize dh'.gzip = g' at hHead hSame
  subst hHead
  by_cases hDown : down = []
  · subst hDown
    have hNone : (State.start [] g a.gkState).startBlock = none := by
      rw [State.startBlock]
      split <;> rfl
    rw [State.startBlock_of_none hNone]
    exact .of_used rfl hSame
  · obtain ⟨hGzip, hState⟩ := hSame.process hFits hReturns
    simp only [processGzipData, if_neg hDown]
    exact .of_used
      (congrArg (fun k => DataHead.mk (some ⟨a.id, k⟩) up tempUp offsetUp down _) hState)
      hGzip

theorem Matched.arrived (h : Matched live c dh dh') (m : Machine) (malloc : Malloc) (a : TcpStream)
    (ds : Segment) (fromClient : Bool) :
    Matched live c (arrived (gzipCode m malloc) dh a ds fromClient)
      (arrived (gzipCode m malloc) dh' a ds fromClient) := by
  obtain ⟨hHead, hReset, hResembles⟩ := h
  generalize dh'.gzip = g' at hHead hReset hResembles
  subst hHead
  have hStream : ({ dh with gzip := g' } : DataHead Gzip).stream = dh.stream := rfl
  unfold Stream.arrived
  rw [hStream]
  by_cases hId : dh.stream = some a.id
  · have hUsed : dh.aTcp ≠ none := by
      intro hNone
      simp [DataHead.stream, hNone] at hId
    rw [if_pos hId, if_pos hId]
    cases fromClient <;> exact .of_used rfl (hResembles hUsed)
  · rw [if_neg hId, if_neg hId]
    cases hUsed : dh.aTcp with
    | none => exact .of_used rfl (resembles_reuse m malloc hReset)
    | some b => exact .of_used rfl (resembles_buffers (hResembles (by simp [hUsed])) _ _)

/-- What becomes of the head that `find_stream` returns. -/
def insertHead (code : GzipCode Gzip) (dh : DataHead Gzip) (a : TcpStream) (ds : Segment)
    (fromClient : Bool) : DataHead Gzip :=
  if fromClient then Stream.arrived code dh a ds true
  else processGzipData code (Stream.arrived code dh a ds false)

/-- The head that the last branch appends. -/
def appended (code : GzipCode Gzip) (dh : DataHead Gzip) (a : TcpStream) (ds : Segment)
    (fromClient : Bool) : List (DataHead Gzip) :=
  if dh.stream = some a.id then []
  else if dh.aTcp.isNone then []
  else [newHead code a ds fromClient]

theorem insertNewDataSegment_eq (code : GzipCode Gzip) {chain : List (DataHead Gzip)}
    (hGet : chain[findStream a.id chain]? = some dh) :
    insertNewDataSegment code chain a ds fromClient =
      some (chain.set (findStream a.id chain) (insertHead code dh a ds fromClient) ++
        appended code dh a ds fromClient) := by
  unfold insertNewDataSegment insertHead Stream.arrived appended
  simp only [hGet, Option.bind_eq_bind, Option.bind_some]
  by_cases hId : dh.stream = some a.id
  · cases fromClient <;> simp [hId, receive]
  · cases hFree : dh.aTcp <;> cases fromClient <;> simp [hId, reuseHead]

theorem Matched.insert {chain : List (DataHead Gzip)} (h : Matched live c dh dh')
    (hGet : chain[findStream a.id chain]? = some dh)
    (hAllowed : (StoreCall.insert a ds fromClient malloc).Allowed m (findStream a.id chain) live c
      chain) :
    Matched live ((StoreCall.insert a ds fromClient malloc).clears m
      (findStream a.id chain) chain c)
      (insertHead (gzipCode m malloc) dh a ds fromClient)
      (insertHead (gzipCode m malloc) dh' a ds fromClient) := by
  obtain ⟨hFits, hReturns⟩ := hAllowed
  cases fromClient with
  | true => exact h.arrived m malloc a ds true
  | false =>
    have hArrived := h.arrived m malloc a ds false
    have hWork : (StoreCall.insert a ds false malloc).work m (findStream a.id chain) chain =
        (Stream.arrived (gzipCode m malloc) dh a ds false).aTcp.map fun b =>
          State.start (Stream.arrived (gzipCode m malloc) dh a ds false).down
            (Stream.arrived (gzipCode m malloc) dh a ds false).gzip b.gkState := by
      rw [StoreCall.work, if_pos rfl, hGet]
      rfl
    rw [StoreCall.clears, hWork]
    rw [hWork] at hFits
    replace hReturns := hReturns rfl dh hGet
    generalize hLeft : Stream.arrived (gzipCode m malloc) dh a ds false = left at *
    cases hUsed : left.aTcp with
    | none =>
      have hUsed' : (Stream.arrived (gzipCode m malloc) dh' a ds false).aTcp = none := by
        rw [hArrived.head]
        exact hUsed
      simp only [insertHead, hLeft, Bool.false_eq_true, if_false, processGzipData, hUsed, hUsed']
      exact hArrived
    | some b =>
      rw [hUsed] at hFits
      simp only [insertHead, hLeft, Bool.false_eq_true, if_false]
      exact hArrived.process malloc hUsed (hFits _ rfl) (hReturns b hUsed)

end Heads

/-! ### The chains -/

/-- The two chains are the same but for a matched head at index `i`. -/
def MatchedAt (live : Prop) (c : Cleared) (i : Nat) (chain chain' : List (DataHead Gzip)) : Prop :=
  ∃ dh dh', chain[i]? = some dh ∧ chain' = chain.set i dh' ∧ Matched live c dh dh'

section Chains

variable {live : Prop} {c : Cleared} {m : Machine} {chain chain' chain₁ : List (DataHead Gzip)}
  {i : Nat}

/-- The stream cache looks for a stream by the `a_tcp` of the heads. -/
theorem findLoop_congr {G : Type} (id : Nat) (chain chain' : List (DataHead G)) (k : Nat)
    (pNull : Option Nat) (h : chain.map DataHead.aTcp = chain'.map DataHead.aTcp) :
    findLoop id chain k pNull = findLoop id chain' k pNull := by
  induction chain generalizing chain' k pNull with
  | nil =>
    obtain rfl : chain' = [] := List.map_eq_nil_iff.mp h.symm
    rfl
  | cons dh rest ih =>
    cases chain' with
    | nil => cases h
    | cons dh' rest' =>
      simp only [List.map_cons, List.cons.injEq] at h
      obtain ⟨hHead, hRest⟩ := h
      have hStream : dh'.stream = dh.stream := by rw [DataHead.stream, DataHead.stream, hHead]
      cases rest with
      | nil =>
        obtain rfl : rest' = [] := List.map_eq_nil_iff.mp hRest.symm
        rfl
      | cons dh₁ rest =>
        cases rest' with
        | nil => cases hRest
        | cons dh₁' rest' =>
          simp only [findLoop, hStream, hHead]
          rw [ih (dh₁' :: rest') _ _ hRest]

theorem findStream_congr {G : Type} (id : Nat) (chain chain' : List (DataHead G))
    (h : chain.map DataHead.aTcp = chain'.map DataHead.aTcp) :
    findStream id chain = findStream id chain' := by
  have hStream : ∀ k : Nat, chain[k]?.bind DataHead.stream = chain'[k]?.bind DataHead.stream := by
    intro k
    have hk : (chain.map DataHead.aTcp)[k]? = (chain'.map DataHead.aTcp)[k]? := by rw [h]
    rw [List.getElem?_map, List.getElem?_map] at hk
    cases hGet : chain[k]? <;> cases hGet' : chain'[k]? <;> simp_all [DataHead.stream]
  unfold findStream
  rw [findLoop_congr id chain chain' 0 none h]
  simp only [hStream]

theorem MatchedAt.find (h : MatchedAt live c i chain chain') (id : Nat) :
    findStream id chain' = findStream id chain := by
  obtain ⟨dh, dh', hGet, rfl, hMatched⟩ := h
  refine findStream_congr id _ _ (List.ext_getElem? fun k => ?_)
  rw [List.getElem?_map, List.getElem?_map]
  by_cases hk : i = k
  · subst hk
    rw [List.getElem?_set_self (List.getElem?_eq_some_iff.mp hGet).1, hGet, hMatched.head]
    rfl
  · rw [List.getElem?_set_ne hk]

theorem MatchedAt.write {dh dh' : DataHead Gzip} (hi : i < chain.length)
    (h : Matched live c dh dh') (tail : List (DataHead Gzip)) :
    MatchedAt live c i (chain.set i dh ++ tail) (chain.set i dh' ++ tail) := by
  have hLength : i < (chain.set i dh).length := by rwa [List.length_set]
  refine ⟨dh, dh', ?_, ?_, h⟩
  · rw [List.getElem?_append_left hLength, List.getElem?_set_self hi]
  · rw [List.set_append_left _ _ hLength, List.set_set]

theorem MatchedAt.other (h : MatchedAt live c i chain chain') {k : Nat} (hk : k ≠ i)
    (dhk : DataHead Gzip) (tail : List (DataHead Gzip)) :
    MatchedAt live c i (chain.set k dhk ++ tail) (chain'.set k dhk ++ tail) := by
  obtain ⟨dh, dh', hGet, rfl, hMatched⟩ := h
  have hi : i < (chain.set k dhk).length := by
    rw [List.length_set]
    exact (List.getElem?_eq_some_iff.mp hGet).1
  refine ⟨dh, dh', ?_, ?_, hMatched⟩
  · rw [List.getElem?_append_left hi, List.getElem?_set_ne hk, hGet]
  · rw [List.set_append_left _ _ hi, List.set_comm _ _ (Ne.symm hk)]

theorem MatchedAt.insert (h : MatchedAt live c i chain chain') {malloc : Malloc} {a : TcpStream}
    {ds : Segment} {fromClient : Bool}
    (hAllowed : (StoreCall.insert a ds fromClient malloc).Allowed m i live c chain)
    (hRun : (StoreCall.insert a ds fromClient malloc).run m chain = some chain₁) :
    ∃ chain₁', (StoreCall.insert a ds fromClient malloc).run m chain' = some chain₁' ∧
      MatchedAt live ((StoreCall.insert a ds fromClient malloc).clears m i chain c) i chain₁
        chain₁' := by
  have hFind := h.find a.id
  obtain ⟨dh, dh', hGet, hChain, hMatched⟩ := id h
  have hi := (List.getElem?_eq_some_iff.mp hGet).1
  have hLength : i < chain'.length := by rwa [hChain, List.length_set]
  by_cases hk : findStream a.id chain = i
  · subst hk
    have hGet' : chain'[findStream a.id chain']? = some dh' := by
      rw [hFind, hChain, List.getElem?_set_self hi]
    have hInsert := hMatched.insert hGet hAllowed
    have hAppended : appended (gzipCode m malloc) dh' a ds fromClient =
        appended (gzipCode m malloc) dh a ds fromClient := by
      rw [hMatched.head]
      rfl
    refine ⟨_, insertNewDataSegment_eq _ hGet', ?_⟩
    rw [StoreCall.run, insertNewDataSegment_eq _ hGet] at hRun
    rw [← Option.some.inj hRun, hFind, hAppended, hChain, List.set_set]
    exact MatchedAt.write hi hInsert _
  · have hWork : (StoreCall.insert a ds fromClient malloc).work m i chain = none := by
      cases fromClient with
      | true => rfl
      | false => rw [StoreCall.work, if_neg hk]
    rw [StoreCall.clears, hWork]
    cases hGet₁ : chain[findStream a.id chain]? with
    | none =>
      rw [StoreCall.run, insertNewDataSegment, hGet₁] at hRun
      cases hRun
    | some dhk =>
      have hGet' : chain'[findStream a.id chain']? = some dhk := by
        rw [hFind, hChain, List.getElem?_set_ne (Ne.symm hk), hGet₁]
      refine ⟨_, insertNewDataSegment_eq _ hGet', ?_⟩
      rw [StoreCall.run, insertNewDataSegment_eq _ hGet₁] at hRun
      rw [← Option.some.inj hRun, hFind]
      exact h.other hk _ _

/-- What `free_data_stream` leaves of a head. -/
def DataHead.freed (dh : DataHead Gzip) : DataHead Gzip :=
  { dh with aTcp := none, up := [], offsetUp := 0, down := [] }

theorem freeDataStream_eq {dh : DataHead Gzip} {stream : Nat}
    (hGet : chain[findStream stream chain]? = some dh) :
    freeDataStream chain stream = if dh.stream = some stream then
      chain.set (findStream stream chain) dh.freed else chain := by
  simp only [freeDataStream, hGet, DataHead.freed]

theorem Matched.free {dh dh' : DataHead Gzip} (h : Matched live c dh dh') :
    Matched live c dh.freed dh'.freed := by
  obtain ⟨hHead, hReset, -⟩ := h
  refine ⟨?_, hReset, fun hUsed => absurd rfl hUsed⟩
  rw [hHead]
  rfl

theorem MatchedAt.free (h : MatchedAt live c i chain chain') (stream : Nat) :
    MatchedAt live c i (freeDataStream chain stream) (freeDataStream chain' stream) := by
  have hFind := h.find stream
  obtain ⟨dh, dh', hGet, hChain, hMatched⟩ := id h
  have hi := (List.getElem?_eq_some_iff.mp hGet).1
  have hStream : dh'.stream = dh.stream := by rw [hMatched.head]; rfl
  by_cases hk : findStream stream chain = i
  · have hGet' : chain'[findStream stream chain']? = some dh' := by
      rw [hFind, hk, hChain, List.getElem?_set_self hi]
    rw [← hk] at hGet
    rw [freeDataStream_eq hGet, freeDataStream_eq hGet', hStream, hFind, hk]
    split
    · have hWrite := MatchedAt.write hi hMatched.free []
      rw [hChain, List.set_set]
      simpa only [List.append_nil] using hWrite
    · exact h
  · cases hGet₁ : chain[findStream stream chain]? with
    | none =>
      have hGet' : chain'[findStream stream chain']? = none := by
        rw [hFind, hChain, List.getElem?_set_ne (Ne.symm hk), hGet₁]
      simp only [freeDataStream, hGet₁, hGet']
      exact h
    | some dhk =>
      have hGet' : chain'[findStream stream chain']? = some dhk := by
        rw [hFind, hChain, List.getElem?_set_ne (Ne.symm hk), hGet₁]
      rw [freeDataStream_eq hGet₁, freeDataStream_eq hGet', hFind]
      split
      · have hOther := h.other hk dhk.freed []
        rwa [List.append_nil, List.append_nil] at hOther
      · exact h

theorem MatchedAt.step (h : MatchedAt live c i chain chain') (call : StoreCall)
    (hAllowed : call.Allowed m i live c chain) (hRun : call.run m chain = some chain₁) :
    ∃ chain₁', call.run m chain' = some chain₁' ∧
      MatchedAt live (call.clears m i chain c) i chain₁ chain₁' := by
  cases call with
  | insert a ds fromClient malloc => exact h.insert hAllowed hRun
  | free stream =>
    obtain rfl := Option.some.inj hRun
    exact ⟨_, rfl, h.free stream⟩

theorem MatchedAt.likeAt (h : MatchedAt live c i chain chain') : LikeAt i c chain chain' := by
  obtain ⟨dh, dh', hGet, hChain, hHead, hReset, hUsed⟩ := h
  refine ⟨dh, dh', hGet, hChain, hHead, ?_, fun h => (hUsed h).sameCounters⟩
  obtain ⟨hLitter, hDist, hUchunk, hDecompress, hResponse⟩ := hReset.sameParser
  exact ⟨hLitter, hDist, hUchunk, hDecompress, fun hc hText hGzip =>
    { hResponse hc hText hGzip with }⟩

/-- A run keeps the chains the same but for a matched head. -/
theorem MatchedAt.run (h : MatchedAt live c i chain chain') (calls : List StoreCall)
    (hRun : runs m chain calls = some chain₁) (hAllowed : Throughout m i live c chain calls) :
    ∃ chain₁', runs m chain' calls = some chain₁' ∧
      MatchedAt live (clearedBy m i chain c calls) i chain₁ chain₁' := by
  induction calls generalizing chain chain' c with
  | nil =>
    obtain rfl := Option.some.inj hRun
    exact ⟨chain', rfl, h⟩
  | cons call calls ih =>
    rw [runs, List.foldlM_cons] at hRun
    cases hStep : call.run m chain with
    | none => simp [hStep] at hRun
    | some chain₂ =>
      obtain ⟨chain₂', hStep', hMatched⟩ :=
        h.step call (hAllowed [] call calls chain rfl rfl) hStep
      rw [hStep] at hRun
      obtain ⟨chain₁', hRun', hLast⟩ :=
        ih hMatched hRun fun done call' rest chain₃ hCalls hDone => by
        have hNext := hAllowed (call :: done) call' rest chain₃ (by rw [hCalls]; rfl) (by
          rw [runs, List.foldlM_cons, hStep]
          exact hDone)
        rwa [clearedBy, hStep] at hNext
      refine ⟨chain₁', ?_, by rwa [clearedBy, hStep]⟩
      rw [runs, List.foldlM_cons, hStep']
      exact hRun'

end Chains

theorem resembles_zeroed (g : Gzip) :
    Resembles (g.head.j = 0) g.cleared (reset g) (reset (zeroed g)) := by
  refine Or.inr ⟨Gzip.zero.head, false, false, false, false, 0, 0, 0, rfl, ?_, ?_, ?_,
    fun hj => ?_⟩
  · rintro hCleared ⟨hText, hGzip⟩
    simp [Gzip.cleared, show g.textFlag = true from hText, show g.gzipFlag = true from hGzip]
      at hCleared
  · exact fun h => Bool.noConfusion h.1
  · show false = g.uchunkFlag ∨ (!g.uchunkFlag) = false ∧ g.uchunkFlag = true
    cases g.uchunkFlag with
    | false => exact Or.inl rfl
    | true => exact Or.inr ⟨rfl, rfl⟩
  · refine ⟨hj.symm, fun k hk => absurd hk ?_⟩
    rw [show (reset g).head.j = 0 from hj]
    exact Nat.not_lt_zero k

/-- A header that ends with its segment. -/
def headerSegment : Segment :=
  Gunzip.ascii ['H', 'T', 'T', 'P', '/', '1', '\n', 't', 'e', 'x', 't', '/', 'h', 't',
    'm', 'l', ' ',
    'g', 'z', 'i', 'p', '\n', '\r', '\n']

/-! ### A run -/

section Decidable

variable (m : Machine) (live : Prop) [Decidable live] (c : Cleared)

instance (down : List Segment) (g : Gzip) (gkState : Int) : Decidable (m.Returns down g gkState) :=
  match h : Gunzip.process m (State.start down g gkState) with
  | .ok _ s => isTrue ⟨s, h⟩
  | .error _ _ => isFalse fun ⟨_, hRun⟩ => by rw [h] at hRun; cases hRun

instance (g : Gzip) : Decidable (g.Own live c) :=
  decidable_of_iff (c.response = true ∧ (c.uchunk = true ∨ g.uchunkFlag = false) ∧
      (3 ≤ g.head.flag → g.head.flag ≤ 5 → live))
    ⟨fun ⟨hResponse, hUchunk, hj⟩ => ⟨hResponse, hUchunk, hj⟩,
      fun ⟨hResponse, hUchunk, hj⟩ => ⟨hResponse, hUchunk, hj⟩⟩

instance (g : Gzip) : Decidable g.Active := inferInstanceAs (Decidable (_ ∧ _))

instance (s : State) : Decidable (s.Fits live c m) :=
  inferInstanceAs (Decidable (∀ block ∈ s.startBlock,
    m.isHeader block = false → s.Active → s.Own live c))

instance (dh : DataHead Gzip) : Decidable (dh.Returns m) :=
  inferInstanceAs (Decidable (∀ a ∈ dh.aTcp, m.Returns dh.down dh.gzip a.gkState))

instance (chain : List (DataHead Gzip)) : ∀ call : StoreCall, Decidable (call.Returns m chain)
  | .insert a ds fromClient malloc => inferInstanceAs (Decidable (fromClient = false →
      ∀ dh ∈ chain[findStream a.id chain]?,
        (arrived (gzipCode m malloc) dh a ds false).Returns m))
  | .free _ => isTrue trivial

instance (i : Nat) (chain : List (DataHead Gzip)) (call : StoreCall) :
    Decidable (call.Allowed m i live c chain) :=
  inferInstanceAs
    (Decidable ((∀ s ∈ call.work m i chain, s.Fits live c m) ∧ call.Returns m chain))

end Decidable

theorem throughout_cons {m : Machine} {i : Nat} {live : Prop} {c : Cleared}
    {chain : List (DataHead Gzip)} {call : StoreCall} {calls : List StoreCall}
    (hCall : call.Allowed m i live c chain)
    (hCalls : ∀ chain₁ ∈ call.run m chain,
      Throughout m i live (call.clears m i chain c) chain₁ calls) :
    Throughout m i live c chain (call :: calls) := by
  intro done call' rest chain₁ hSplit hDone
  rcases done with _ | ⟨_, done⟩
  · obtain ⟨rfl, -⟩ := List.cons.inj hSplit
    obtain rfl := Option.some.inj hDone
    exact hCall
  · obtain ⟨rfl, hRest⟩ := List.cons.inj hSplit
    rw [runs, List.foldlM_cons] at hDone
    obtain ⟨chain₂, hStep, hDone⟩ := Option.bind_eq_some_iff.mp hDone
    rw [clearedBy, hStep]
    exact hCalls chain₂ hStep done call' rest chain₁ hRest hDone

theorem throughout_nil {m : Machine} {i : Nat} {live : Prop} {c : Cleared}
    {chain : List (DataHead Gzip)} : Throughout m i live c chain [] := by
  intro done call rest chain₁ hSplit
  simp at hSplit

/-- The server of stream 1 sends a header. -/
def before : List StoreCall := [.insert ⟨1, 0⟩ headerSegment false (mallocAt 1 2)]

/-- The server of stream 2 sends a header. -/
def header : StoreCall := .insert ⟨2, 0⟩ headerSegment false (mallocAt 3 4)

/-- It goes on with a size line. -/
def sizeLine : StoreCall := .insert ⟨2, 0⟩ [53, 13, 10] false (mallocAt 5 6)

/-- Whether the head at index `i` decompresses a response. -/
def activeAt (i : Nat) (chain : List (DataHead Gzip)) : Option Bool :=
  chain[i]?.map fun dh => dh.gzip.textFlag && dh.gzip.gzipFlag

theorem LikeAt.activeAt {i : Nat} {c : Cleared} {chain chain' : List (DataHead Gzip)}
    (h : LikeAt i c chain chain') (hc : c.response = true) :
    Stream.activeAt i chain' = Stream.activeAt i chain := by
  obtain ⟨dh, dh', hGet, rfl, -, hParser, -⟩ := h
  have hi := (List.getElem?_eq_some_iff.mp hGet).1
  unfold Stream.activeAt
  rw [List.getElem?_set_self hi, hGet, Option.map_some, Option.map_some, hParser.decompress hc]

end Shutter.Stream
