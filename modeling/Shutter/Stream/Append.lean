import Shutter.Library.Buffer
import Shutter.Library.Run
import Shutter.Stream.Head

/-! `get_buffer` while the capture thread appends.  The appends of `insert_new_data_segment` take no
lock, so each read of `last_up` and of a `next` pointer is a step of its own.  The sizing pass
visits no segment behind the last one of its time, and the copying pass finds all the segments that
the sizing pass has visited. -/

namespace Shutter.Stream

open Shutter.Library

/-- The segments of the up stream that are linked, in the order of the chain, and the index of
`last_up`. -/
structure Chain where
  segs : List Segment
  lastUp : Nat

/-- `next` of the segment `i`. -/
def Chain.next (c : Chain) (i : Nat) : Option Nat :=
  if i + 1 < c.segs.length then some (i + 1) else none

/-- The next step of `get_buffer`.  A loop tests `NULL != ds` and reads `dh->last_up`, and then
reads `next` of the segment that was the last one. -/
inductive Pc where
  | sizeFirst
  | sizeTest (ds : Option Nat)
  | sizeLast (ds last : Nat)
  | sizeNext (ds : Nat)
  | malloc
  | copyFirst
  | copyTest (ds : Option Nat)
  | copyLast (ds last : Nat)
  | copyNext (ds : Nat)
  | done
  deriving DecidableEq

/-- `get_buffer` at work, behind its test of `a_tcp` and with a `temp_up`.  The bytes of `buffer`
are missing until they are written, and `visited` is the last segment that the sizing pass has
visited. -/
structure Reading where
  chain : Chain
  tempUp : Nat
  offsetUp : Nat
  pc : Pc
  thisLength : Nat
  len : Nat
  buffer : List (Option UInt8)
  visited : Nat

namespace Reading

/-- One step of `get_buffer`, which fails where a write is outside the buffer or a segment is not
in the chain. -/
def read (s : Reading) : Option Reading :=
  match s.pc with
  | .sizeFirst => do
    let seg ← s.chain.segs[s.tempUp]?
    some { s with thisLength := seg.length - s.offsetUp, visited := s.tempUp,
                  pc := .sizeTest (s.chain.next s.tempUp) }
  | .sizeTest none => some { s with pc := .malloc }
  | .sizeTest (some ds) => some { s with pc := .sizeLast ds s.chain.lastUp }
  | .sizeLast ds last =>
    some { s with pc := if s.chain.next last = some ds then .malloc else .sizeNext ds }
  | .sizeNext ds => do
    let seg ← s.chain.segs[ds]?
    some { s with thisLength := s.thisLength + seg.length, visited := ds,
                  pc := .sizeTest (s.chain.next ds) }
  | .malloc => do
    let buffer ← store (List.replicate (1 + s.thisLength) none) s.thisLength [some 0]
    some { s with buffer, len := s.thisLength, pc := .copyFirst }
  | .copyFirst => do
    let seg ← s.chain.segs[s.tempUp]?
    let buffer ← store s.buffer 0 ((seg.drop s.offsetUp).map some)
    some { s with buffer, thisLength := seg.length - s.offsetUp,
                  pc := .copyTest (s.chain.next s.tempUp) }
  | .copyTest none => some { s with pc := .done }
  | .copyTest (some ds) => some { s with pc := .copyLast ds s.chain.lastUp }
  | .copyLast ds last =>
    some { s with pc := if s.chain.next last = some ds then .done
                        else if s.thisLength < s.len then .copyNext ds else .done }
  | .copyNext ds => do
    let seg ← s.chain.segs[ds]?
    let buffer ← store s.buffer s.thisLength (seg.map some)
    some { s with buffer, thisLength := s.thisLength + seg.length,
                  pc := .copyTest (s.chain.next ds) }
  | .done => none

/-- A step of either thread: `p_dh->last_up->next = ds` and `p_dh->last_up = ds` of an append, or
one of `get_buffer`. -/
inductive Act where
  | link (ds : Segment)
  | publish
  | read

/-- One step.  The two steps of an append follow each other. -/
def act (s : Reading) : Act → Option Reading
  | .link ds =>
    if s.chain.lastUp + 1 = s.chain.segs.length then
      some { s with chain := { s.chain with segs := s.chain.segs ++ [ds] } }
    else none
  | .publish =>
    if s.chain.lastUp + 2 = s.chain.segs.length then
      some { s with chain := { s.chain with lastUp := s.chain.lastUp + 1 } }
    else none
  | .read => s.read

/-- The bytes from `temp_up`, behind `offset_up`, through the segment `k`. -/
def through (s : Reading) (k : Nat) : List UInt8 :=
  ((s.chain.segs.take (k + 1)).drop s.tempUp).flatten.drop s.offsetUp

/-- The writes of the copying pass end within the length that the sizing pass has computed. -/
def InBounds (s : Reading) : Prop :=
  (s.pc = .copyFirst → ∀ seg, s.chain.segs[s.tempUp]? = some seg →
    seg.length - s.offsetUp ≤ s.len) ∧
  ∀ ds, s.pc = .copyNext ds → ∀ seg, s.chain.segs[ds]? = some seg →
    s.thisLength + seg.length ≤ s.len

/-- `temp_up` is in the chain, and `offset_up` in its segment.  An append may be at work. -/
structure Placed (s : Reading) : Prop where
  chain : s.chain.lastUp + 1 = s.chain.segs.length ∨ s.chain.lastUp + 2 = s.chain.segs.length
  cursor : ∃ seg, s.chain.segs[s.tempUp]? = some seg ∧ s.offsetUp ≤ seg.length

/-! ### The bytes through a segment -/

variable {s : Reading}

theorem Placed.cursor_lt (h : s.Placed) : s.tempUp < s.chain.segs.length := by
  obtain ⟨seg, hSeg, -⟩ := h.cursor
  exact (List.getElem?_eq_some_iff.mp hSeg).1

theorem through_cursor {seg : Segment} (hSeg : s.chain.segs[s.tempUp]? = some seg) :
    s.through s.tempUp = seg.drop s.offsetUp := by
  have hTake : (s.chain.segs.take (s.tempUp + 1)).drop s.tempUp = [seg] := by
    rw [List.drop_take, Nat.add_sub_cancel_left]
    obtain ⟨hLt, rfl⟩ := List.getElem?_eq_some_iff.mp hSeg
    rw [List.drop_eq_getElem_cons hLt]
    rfl
  rw [through, hTake, List.flatten_singleton]

theorem Placed.through_next (h : s.Placed) {k : Nat} (hk : s.tempUp ≤ k) {seg : Segment}
    (hSeg : s.chain.segs[k + 1]? = some seg) : s.through (k + 1) = s.through k ++ seg := by
  obtain ⟨first, hFirst, hOffset⟩ := h.cursor
  obtain ⟨hLt, hGet⟩ := List.getElem?_eq_some_iff.mp hSeg
  have hTake : s.chain.segs.take (k + 1 + 1) = s.chain.segs.take (k + 1) ++ [seg] := by
    rw [List.take_add_one, hSeg]
    rfl
  have hLong : s.offsetUp ≤ ((s.chain.segs.take (k + 1)).drop s.tempUp).flatten.length := by
    have hHead : ((s.chain.segs.take (k + 1)).drop s.tempUp)[0]? = some first := by
      rw [List.getElem?_drop, List.getElem?_take_of_lt (by omega), Nat.add_zero, hFirst]
    have hMem := (List.sublist_flatten_of_mem (List.mem_of_getElem? hHead)).length_le
    omega
  rw [through, through, hTake, List.drop_append_of_le_length, List.flatten_append,
    List.drop_append_of_le_length hLong, List.flatten_singleton]
  rw [List.length_take]
  omega

/-- A later segment only adds bytes. -/
theorem Placed.through_prefix (h : s.Placed) {k l : Nat} (hk : s.tempUp ≤ k) (hl : k ≤ l)
    (hLt : l < s.chain.segs.length) : s.through k <+: s.through l := by
  induction l, hl using Nat.le_induction with
  | base => exact List.prefix_rfl
  | succ l hl ih =>
    have hSeg : s.chain.segs[l + 1]? = some s.chain.segs[l + 1] := List.getElem?_eq_getElem hLt
    rw [h.through_next (hk.trans hl) hSeg]
    exact (ih (by omega)).trans (List.prefix_append _ _)

/-! ### The invariant -/

/-- The sizing pass has the length of the bytes through the last segment that it has visited, which
was the last one of the chain or before it. -/
structure Sized (s : Reading) : Prop where
  cursor_le : s.tempUp ≤ s.visited
  linked : s.visited < s.chain.segs.length
  published : s.visited = s.tempUp ∨ s.visited ≤ s.chain.lastUp
  length : s.thisLength = (s.through s.visited).length

/-- The copying pass has the bytes through the segment `k`. -/
structure Copied (s : Reading) (k : Nat) : Prop where
  cursor_le : s.tempUp ≤ k
  visited_le : k ≤ s.visited
  linked : s.visited < s.chain.segs.length
  published : s.visited = s.tempUp ∨ s.visited ≤ s.chain.lastUp
  len : s.len = (s.through s.visited).length
  length : s.thisLength = (s.through k).length
  buffer : s.buffer =
    (s.through k).map some ++ (List.replicate (s.len - s.thisLength) none ++ [some 0])

/-- The buffer behind `malloc`. -/
structure Allocated (s : Reading) : Prop where
  cursor_le : s.tempUp ≤ s.visited
  linked : s.visited < s.chain.segs.length
  published : s.visited = s.tempUp ∨ s.visited ≤ s.chain.lastUp
  len : s.len = (s.through s.visited).length
  buffer : s.buffer = List.replicate s.len none ++ [some 0]

/-- What holds at each step.  A segment that is at hand is the one behind the last one visited or
copied, and `last` has been the last segment of the chain. -/
def At (s : Reading) : Prop :=
  match s.pc with
  | .sizeFirst => True
  | .sizeTest ds => s.Sized ∧ ∀ d, ds = some d → d = s.visited + 1 ∧ d < s.chain.segs.length
  | .sizeLast ds last =>
    s.Sized ∧ ds = s.visited + 1 ∧ ds < s.chain.segs.length ∧ last ≤ s.chain.lastUp ∧
      ds ≤ last + 1
  | .sizeNext ds => s.Sized ∧ ds = s.visited + 1 ∧ ds < s.chain.segs.length ∧
      ds ≤ s.chain.lastUp
  | .malloc => s.Sized
  | .copyFirst => s.Allocated
  | .copyTest none => s.Copied s.visited
  | .copyTest (some ds) => ∃ k, ds = k + 1 ∧ ds < s.chain.segs.length ∧ s.Copied k
  | .copyLast ds last =>
    ∃ k, ds = k + 1 ∧ ds < s.chain.segs.length ∧ s.Copied k ∧
      (ds ≤ s.visited → ds ≤ last)
  | .copyNext ds => ∃ k, ds = k + 1 ∧ ds ≤ s.visited ∧ s.Copied k
  | .done => s.Copied s.visited

/-- The chain has grown, and nothing else has changed. -/
structure Grows (s s' : Reading) : Prop where
  segs : s.chain.segs <+: s'.chain.segs
  lastUp : s.chain.lastUp ≤ s'.chain.lastUp
  rest : s' = { s with chain := s'.chain }

theorem Grows.through {s' : Reading} (h : Grows s s') {k : Nat} (hk : k < s.chain.segs.length) :
    s'.through k = s.through k := by
  obtain ⟨more, hMore⟩ := h.segs
  rw [h.rest]
  simp only [Reading.through, ← hMore]
  rw [List.take_append_of_le_length (by omega)]

theorem Grows.sized {s' : Reading} (h : Grows s s') (hs : s.Sized) : s'.Sized := by
  have hLength := h.segs.length_le
  have hLast := h.lastUp
  have hThrough := h.through hs.linked
  obtain ⟨hCursor, hLinked, hPublished, hSize⟩ := hs
  rw [h.rest] at hThrough ⊢
  exact ⟨hCursor, by simp only; omega, by simp only; omega, hSize.trans (hThrough ▸ rfl)⟩

theorem Grows.copied {s' : Reading} (h : Grows s s') {k : Nat} (hs : s.Copied k) : s'.Copied k := by
  have hLength := h.segs.length_le
  have hLast := h.lastUp
  have hAll := h.through hs.linked
  have hThrough := h.through (Nat.lt_of_le_of_lt hs.visited_le hs.linked)
  obtain ⟨hCursor, hVisited, hLinked, hPublished, hLen, hSize, hBuffer⟩ := hs
  rw [h.rest] at hAll hThrough ⊢
  refine ⟨hCursor, hVisited, by simp only; omega, by simp only; omega, ?_, ?_, ?_⟩
  · exact hLen.trans (hAll ▸ rfl)
  · exact hSize.trans (hThrough ▸ rfl)
  · rw [hThrough]
    exact hBuffer

theorem Grows.allocated {s' : Reading} (h : Grows s s') (hs : s.Allocated) : s'.Allocated := by
  have hLength := h.segs.length_le
  have hLast := h.lastUp
  have hThrough := h.through hs.linked
  obtain ⟨hCursor, hLinked, hPublished, hLen, hBuffer⟩ := hs
  rw [h.rest] at hThrough ⊢
  exact ⟨hCursor, by simp only; omega, by simp only; omega,
    hLen.trans (hThrough ▸ rfl), hBuffer⟩

/-- An append keeps the invariant. -/
theorem Grows.at {s' : Reading} (h : Grows s s') (hs : s.At) : s'.At := by
  have hLength := h.segs.length_le
  have hLast := h.lastUp
  have hPc : s'.pc = s.pc := by rw [h.rest]
  have hVisited : s'.visited = s.visited := by rw [h.rest]
  unfold At at hs ⊢
  rw [hPc, hVisited]
  cases hCase : s.pc with
  | sizeFirst => trivial
  | sizeTest ds =>
    rw [hCase] at hs
    exact ⟨h.sized hs.1, fun d hd => ⟨(hs.2 d hd).1, (hs.2 d hd).2.trans_le hLength⟩⟩
  | sizeLast ds last =>
    rw [hCase] at hs
    obtain ⟨hSized, hNext, hLinked, hWas, hBehind⟩ := hs
    exact ⟨h.sized hSized, hNext, hLinked.trans_le hLength, hWas.trans hLast, hBehind⟩
  | sizeNext ds =>
    rw [hCase] at hs
    obtain ⟨hSized, hNext, hLinked, hPublished⟩ := hs
    exact ⟨h.sized hSized, hNext, hLinked.trans_le hLength, hPublished.trans hLast⟩
  | malloc =>
    rw [hCase] at hs
    exact h.sized hs
  | copyFirst =>
    rw [hCase] at hs
    exact h.allocated hs
  | copyTest ds =>
    rw [hCase] at hs
    cases ds with
    | none => exact h.copied hs
    | some ds =>
      obtain ⟨k, hk, hLinked, hCopied⟩ := hs
      exact ⟨k, hk, hLinked.trans_le hLength, h.copied hCopied⟩
  | copyLast ds last =>
    rw [hCase] at hs
    obtain ⟨k, hk, hLinked, hCopied, hWas⟩ := hs
    exact ⟨k, hk, hLinked.trans_le hLength, h.copied hCopied, hWas⟩
  | copyNext ds =>
    rw [hCase] at hs
    obtain ⟨k, hk, hLe, hCopied⟩ := hs
    exact ⟨k, hk, hLe, h.copied hCopied⟩
  | done =>
    rw [hCase] at hs
    exact h.copied hs

/-! ### The steps of `get_buffer` -/

theorem next_eq_some {c : Chain} {i d : Nat} :
    c.next i = some d ↔ d = i + 1 ∧ d < c.segs.length := by
  unfold Chain.next
  split
  · rw [Option.some.injEq]
    omega
  · simp only [false_iff, reduceCtorEq]
    omega

theorem next_eq_none {c : Chain} {i : Nat} : c.next i = none ↔ c.segs.length ≤ i + 1 := by
  simp [Chain.next]

theorem Sized.withPc (h : s.Sized) (pc : Pc) : Sized { s with pc } :=
  ⟨h.cursor_le, h.linked, h.published, h.length⟩

theorem Copied.withPc {k : Nat} (h : s.Copied k) (pc : Pc) : Copied { s with pc } k :=
  ⟨h.cursor_le, h.visited_le, h.linked, h.published, h.len, h.length, h.buffer⟩

/-- What a step of `get_buffer` leaves, when the chain and the cursor stay as they are. -/
structure Steps (s s' : Reading) : Prop where
  read : s.read = some s'
  chain : s'.chain = s.chain
  tempUp : s'.tempUp = s.tempUp
  offsetUp : s'.offsetUp = s.offsetUp
  at_ : s'.At

theorem read_sizeFirst (h : s.Placed) (hPc : s.pc = .sizeFirst) : ∃ s', Steps s s' := by
  obtain ⟨seg, hSeg, hOffset⟩ := h.cursor
  refine ⟨{ s with thisLength := seg.length - s.offsetUp, visited := s.tempUp,
                   pc := .sizeTest (s.chain.next s.tempUp) }, ?_, rfl, rfl, rfl, ?_, ?_⟩
  · simp [read, hPc, hSeg]
  · refine ⟨Nat.le_refl _, h.cursor_lt, Or.inl rfl, ?_⟩
    have hThrough := through_cursor hSeg
    rw [← List.length_drop, ← hThrough]
    rfl
  · exact fun d hd => next_eq_some.mp hd

theorem read_sizeTest (h : s.Placed) (hAt : s.At) {ds : Option Nat} (hPc : s.pc = .sizeTest ds) :
    ∃ s', Steps s s' := by
  unfold At at hAt
  rw [hPc] at hAt
  obtain ⟨hSized, hNext⟩ := hAt
  cases ds with
  | none =>
    exact ⟨{ s with pc := .malloc }, by simp [read, hPc], rfl, rfl, rfl, hSized.withPc _⟩
  | some ds =>
    obtain ⟨hds, hLinked⟩ := hNext ds rfl
    refine ⟨{ s with pc := .sizeLast ds s.chain.lastUp }, by simp [read, hPc], rfl, rfl, rfl,
      hSized.withPc _, hds, hLinked, Nat.le_refl _, ?_⟩
    have hChain := h.chain
    omega

theorem read_sizeLast (hAt : s.At) {ds last : Nat} (hPc : s.pc = .sizeLast ds last) :
    ∃ s', Steps s s' := by
  unfold At at hAt
  rw [hPc] at hAt
  obtain ⟨hSized, hds, hLinked, hWas, hBehind⟩ := hAt
  refine ⟨{ s with pc := if s.chain.next last = some ds then .malloc else .sizeNext ds },
    by simp [read, hPc], rfl, rfl, rfl, ?_⟩
  unfold At
  split_ifs with hStop
  · exact hSized.withPc _
  · -- the segment behind `last` is linked, so `ds` is not the one behind it
    have hNot : ds ≠ last + 1 := fun heq => hStop (next_eq_some.mpr ⟨heq, hLinked⟩)
    exact ⟨hSized.withPc _, hds, hLinked, by simp only; omega⟩

theorem read_sizeNext (h : s.Placed) (hAt : s.At) {ds : Nat} (hPc : s.pc = .sizeNext ds) :
    ∃ s', Steps s s' := by
  unfold At at hAt
  rw [hPc] at hAt
  obtain ⟨hSized, hds, hLinked, hPublished⟩ := hAt
  have hSeg : s.chain.segs[ds]? = some s.chain.segs[ds] := List.getElem?_eq_getElem hLinked
  refine ⟨{ s with thisLength := s.thisLength + s.chain.segs[ds].length, visited := ds,
                   pc := .sizeTest (s.chain.next ds) },
    by simp [read, hPc, hSeg], rfl, rfl, rfl, ⟨?_, hLinked, Or.inr hPublished, ?_⟩,
    fun d hd => next_eq_some.mp hd⟩
  · have hCursor := hSized.cursor_le
    simp only
    omega
  · subst hds
    have hThrough := h.through_next hSized.cursor_le hSeg
    have hLength := congrArg List.length hThrough
    rw [List.length_append, ← hSized.length] at hLength
    exact hLength.symm

theorem read_malloc (hAt : s.At) (hPc : s.pc = .malloc) : ∃ s', Steps s s' := by
  unfold At at hAt
  rw [hPc] at hAt
  have hStore : store (List.replicate (1 + s.thisLength) none) s.thisLength [some (0 : UInt8)] =
      some (List.replicate s.thisLength none ++ [some 0]) := by
    have hSplit : List.replicate (1 + s.thisLength) (none : Option UInt8) =
        List.replicate s.thisLength none ++ ([none] ++ []) := by
      rw [Nat.add_comm, List.replicate_succ', List.append_nil]
    have hGap := store_gap (List.replicate s.thisLength none) [none] []
      [some (0 : UInt8)] (Nat.le_refl _)
    rw [List.length_replicate] at hGap
    rw [hSplit, hGap]
    simp
  refine ⟨{ s with buffer := List.replicate s.thisLength none ++ [some 0], len := s.thisLength,
                   pc := .copyFirst }, by simp [read, hPc, hStore], rfl, rfl, rfl, ?_⟩
  exact ⟨hAt.cursor_le, hAt.linked, hAt.published, hAt.length, rfl⟩

/-- The segment of the cursor fits the buffer. -/
theorem Allocated.fits (hAlloc : s.Allocated) (h : s.Placed) {seg : Segment}
    (hSeg : s.chain.segs[s.tempUp]? = some seg) : seg.length - s.offsetUp ≤ s.len := by
  have hPrefix := h.through_prefix (Nat.le_refl _) hAlloc.cursor_le hAlloc.linked
  have hLength := hPrefix.length_le
  rwa [through_cursor hSeg, List.length_drop, ← hAlloc.len] at hLength

/-- A segment that the sizing pass has visited fits what is left of the buffer. -/
theorem Copied.fits {k : Nat} (hCopied : s.Copied k) (h : s.Placed) (hk : k + 1 ≤ s.visited)
    {seg : Segment} (hSeg : s.chain.segs[k + 1]? = some seg) :
    s.thisLength + seg.length ≤ s.len := by
  have hCursor := hCopied.cursor_le
  have hPrefix := h.through_prefix (k := k + 1) (by omega) hk hCopied.linked
  have hLength := hPrefix.length_le
  rwa [h.through_next hCursor hSeg, List.length_append, ← hCopied.length, ← hCopied.len]
    at hLength

/-- Behind a copy, `ds` is the next segment, or the last one that was visited has been copied. -/
theorem Copied.test {k : Nat} (h : s.Copied k) :
    At { s with pc := .copyTest (s.chain.next k) } := by
  unfold At
  cases hNext : s.chain.next k with
  | none =>
    have hLast := next_eq_none.mp hNext
    have hLe := h.visited_le
    have hLinked := h.linked
    obtain rfl : k = s.visited := by omega
    exact h.withPc _
  | some d =>
    obtain ⟨hd, hLinked⟩ := next_eq_some.mp hNext
    exact ⟨k, hd, hLinked, h.withPc _⟩

theorem read_copyFirst (h : s.Placed) (hAt : s.At) (hPc : s.pc = .copyFirst) :
    ∃ s', Steps s s' := by
  unfold At at hAt
  rw [hPc] at hAt
  obtain ⟨seg, hSeg, -⟩ := h.cursor
  have hFits := hAt.fits h hSeg
  let buffer := (seg.drop s.offsetUp).map some ++
    (List.replicate (s.len - (seg.length - s.offsetUp)) none ++ [some 0])
  have hStore : store s.buffer 0 ((seg.drop s.offsetUp).map some) = some buffer := by
    have hGap := store_gap [] (List.replicate s.len none) [some 0]
      ((seg.drop s.offsetUp).map some) (by simpa using hFits)
    rw [List.nil_append, List.nil_append, List.drop_replicate, List.length_map,
      List.length_drop] at hGap
    rw [hAt.buffer]
    exact hGap
  refine ⟨{ s with buffer, thisLength := seg.length - s.offsetUp,
                   pc := .copyTest (s.chain.next s.tempUp) },
    by simp only [read, hPc, hSeg, hStore, Option.bind_eq_bind, Option.bind_some], rfl,
      rfl, rfl, ?_⟩
  have hThrough := through_cursor hSeg
  refine Copied.test (s := { s with buffer, thisLength := seg.length - s.offsetUp })
    ⟨Nat.le_refl _, hAt.cursor_le, hAt.linked, hAt.published, hAt.len, ?_, ?_⟩
  · rw [← List.length_drop, ← hThrough]
    rfl
  · have hSame : through { s with buffer, thisLength := seg.length - s.offsetUp } s.tempUp =
        seg.drop s.offsetUp := hThrough
    rw [hSame]

theorem read_copyTest (hAt : s.At) {ds : Option Nat} (hPc : s.pc = .copyTest ds) :
    ∃ s', Steps s s' := by
  unfold At at hAt
  rw [hPc] at hAt
  cases ds with
  | none => exact ⟨{ s with pc := .done }, by simp [read, hPc], rfl, rfl, rfl, hAt.withPc _⟩
  | some ds =>
    obtain ⟨k, hk, hLinked, hCopied⟩ := hAt
    refine ⟨{ s with pc := .copyLast ds s.chain.lastUp }, by simp [read, hPc], rfl, rfl, rfl,
      k, hk, hLinked, hCopied.withPc _, fun hLe => ?_⟩
    have hCursor := hCopied.cursor_le
    have hPublished := hCopied.published
    simp only at hLe
    omega

theorem read_copyLast (h : s.Placed) (hAt : s.At) {ds last : Nat} (hPc : s.pc = .copyLast ds last) :
    ∃ s', Steps s s' := by
  unfold At at hAt
  rw [hPc] at hAt
  obtain ⟨k, hk, hLinked, hCopied, hWas⟩ := hAt
  refine ⟨{ s with pc := if s.chain.next last = some ds then .done
                         else if s.thisLength < s.len then .copyNext ds else .done },
    by simp [read, hPc], rfl, rfl, rfl, ?_⟩
  have hVisited := hCopied.visited_le
  unfold At
  split_ifs with hStop hLess
  · obtain ⟨hBehind, -⟩ := next_eq_some.mp hStop
    obtain rfl : k = s.visited := by omega
    exact hCopied.withPc _
  · have hNot : k ≠ s.visited := by
      rintro rfl
      rw [hCopied.length, hCopied.len] at hLess
      exact Nat.lt_irrefl _ hLess
    exact ⟨k, hk, by simp only; omega, hCopied.withPc _⟩
  · -- the segments that are left are empty
    have hPrefix := h.through_prefix hCopied.cursor_le hVisited hCopied.linked
    have hSame : s.through k = s.through s.visited := by
      apply hPrefix.eq_of_length_le
      rw [← hCopied.length, ← hCopied.len]
      omega
    have hBuffer := hCopied.buffer
    rw [hSame] at hBuffer
    exact ⟨hCopied.cursor_le.trans hVisited, Nat.le_refl _, hCopied.linked, hCopied.published,
      hCopied.len, hCopied.length.trans (congrArg List.length hSame), hBuffer⟩

theorem read_copyNext (h : s.Placed) (hAt : s.At) {ds : Nat} (hPc : s.pc = .copyNext ds) :
    ∃ s', Steps s s' := by
  unfold At at hAt
  rw [hPc] at hAt
  obtain ⟨k, rfl, hLe, hCopied⟩ := hAt
  have hLinked : k + 1 < s.chain.segs.length := hLe.trans_lt hCopied.linked
  have hSeg : s.chain.segs[k + 1]? = some s.chain.segs[k + 1] := List.getElem?_eq_getElem hLinked
  generalize s.chain.segs[k + 1] = seg at hSeg
  have hFits := hCopied.fits h hLe hSeg
  let buffer := (s.through k).map some ++ seg.map some ++
    (List.replicate (s.len - s.thisLength - seg.length) none ++ [some 0])
  have hStore : store s.buffer s.thisLength (seg.map some) = some buffer := by
    have hGap := store_gap ((s.through k).map some)
      (List.replicate (s.len - s.thisLength) none) [some 0] (seg.map some)
      (by rw [List.length_map, List.length_replicate]; omega)
    rw [List.length_map, ← hCopied.length, List.drop_replicate, List.length_map] at hGap
    rw [hCopied.buffer]
    exact hGap
  refine ⟨{ s with buffer, thisLength := s.thisLength + seg.length,
                   pc := .copyTest (s.chain.next (k + 1)) },
    by simp [read, hPc, hSeg, hStore], rfl, rfl, rfl, ?_⟩
  have hThrough := h.through_next hCopied.cursor_le hSeg
  refine Copied.test (s := { s with buffer, thisLength := s.thisLength + seg.length })
    ⟨Nat.le_succ_of_le hCopied.cursor_le, hLe, hCopied.linked, hCopied.published,
      hCopied.len, ?_, ?_⟩
  · have hLength := congrArg List.length hThrough
    rw [List.length_append, ← hCopied.length] at hLength
    exact hLength.symm
  · have hSame : through { s with buffer, thisLength := s.thisLength + seg.length } (k + 1) =
        s.through k ++ seg := hThrough
    rw [hSame, List.map_append]
    simp only [buffer, Nat.sub_sub]

/-- `get_buffer` goes on until it is done. -/
theorem At.read (hAt : s.At) (h : s.Placed) (hPc : s.pc ≠ .done) : ∃ s', Steps s s' := by
  cases hCase : s.pc with
  | sizeFirst => exact read_sizeFirst h hCase
  | sizeTest ds => exact read_sizeTest h hAt hCase
  | sizeLast ds last => exact read_sizeLast hAt hCase
  | sizeNext ds => exact read_sizeNext h hAt hCase
  | malloc => exact read_malloc hAt hCase
  | copyFirst => exact read_copyFirst h hAt hCase
  | copyTest ds => exact read_copyTest hAt hCase
  | copyLast ds last => exact read_copyLast h hAt hCase
  | copyNext ds => exact read_copyNext h hAt hCase
  | done => exact absurd hCase hPc

theorem At.inBounds (hAt : s.At) (h : s.Placed) : s.InBounds := by
  unfold At at hAt
  constructor
  · intro hPc seg hSeg
    rw [hPc] at hAt
    exact hAt.fits h hSeg
  · intro ds hPc seg hSeg
    rw [hPc] at hAt
    obtain ⟨k, rfl, hLe, hCopied⟩ := hAt
    exact hCopied.fits h hLe hSeg

/-! ### Runs -/

/-- `get_buffer` at its start, while an append may be at work. -/
def Starts (s : Reading) : Prop := s.Placed ∧ s.pc = .sizeFirst

/-- What a run from `s₀` keeps: the cursor, the chain but for what is appended, and the
invariant. -/
structure Since (s₀ s : Reading) : Prop where
  placed : s.Placed
  at_ : s.At
  tempUp : s.tempUp = s₀.tempUp
  offsetUp : s.offsetUp = s₀.offsetUp
  segs : s₀.chain.segs <+: s.chain.segs

theorem Since.grow {s₀ s' : Reading} (h : Since s₀ s) (hGrows : Grows s s')
    (hChain : s'.chain.lastUp + 1 = s'.chain.segs.length ∨
      s'.chain.lastUp + 2 = s'.chain.segs.length) : Since s₀ s' := by
  obtain ⟨seg, hSeg, hOffset⟩ := h.placed.cursor
  have hTempUp : s'.tempUp = s.tempUp := by rw [hGrows.rest]
  have hOffsetUp : s'.offsetUp = s.offsetUp := by rw [hGrows.rest]
  obtain ⟨hLt, hGet⟩ := List.getElem?_eq_some_iff.mp hSeg
  refine ⟨⟨hChain, seg, ?_, hOffsetUp ▸ hOffset⟩, hGrows.at h.at_, hTempUp.trans h.tempUp,
    hOffsetUp.trans h.offsetUp, h.segs.trans hGrows.segs⟩
  obtain ⟨more, hMore⟩ := hGrows.segs
  rw [hTempUp, ← hMore, List.getElem?_append_left hLt, hSeg]

theorem Since.act {s₀ s' : Reading} (h : Since s₀ s) {a : Act} (hAct : s.act a = some s') :
    Since s₀ s' := by
  have hChain := h.placed.chain
  cases a with
  | link ds =>
    simp only [Reading.act, Option.ite_none_right_eq_some] at hAct
    obtain ⟨hIdle, hSome⟩ := hAct
    obtain rfl := Option.some.inj hSome
    refine h.grow ⟨List.prefix_append _ _, Nat.le_refl _, rfl⟩ (Or.inr ?_)
    simp only [List.length_append, List.length_singleton]
    omega
  | publish =>
    simp only [Reading.act, Option.ite_none_right_eq_some] at hAct
    obtain ⟨hLinked, hSome⟩ := hAct
    obtain rfl := Option.some.inj hSome
    exact h.grow ⟨List.prefix_rfl, Nat.le_succ _, rfl⟩ (Or.inl (by simp only; omega))
  | read =>
    have hPc : s.pc ≠ .done := by
      intro hDone
      simp [Reading.act, Reading.read, hDone] at hAct
    obtain ⟨s'', hSteps⟩ := h.at_.read h.placed hPc
    obtain rfl := Option.some.inj (hSteps.read.symm.trans hAct)
    refine ⟨⟨?_, ?_⟩, hSteps.at_, hSteps.tempUp.trans h.tempUp,
      hSteps.offsetUp.trans h.offsetUp, ?_⟩
    · rw [hSteps.chain]
      exact hChain
    · rw [hSteps.chain, hSteps.tempUp, hSteps.offsetUp]
      exact h.placed.cursor
    · rw [hSteps.chain]
      exact h.segs

/-- Whatever is appended between its steps, `get_buffer` goes on until it is done, its copies end
within the length of the sizing pass, and its result is the bytes from the cursor through the last
segment that the sizing pass has visited, and a NUL. -/
theorem get_buffer_exact (s₀ : Reading) (hStart : s₀.Starts) (acts : List Act) (s : Reading)
    (hRun : acts.foldlM act s₀ = some s) :
    s.InBounds ∧ (s.pc ≠ .done → ∃ s', s.read = some s') ∧
    (s₀.tempUp = s.tempUp ∧ s₀.offsetUp = s.offsetUp ∧ s₀.chain.segs <+: s.chain.segs) ∧
    (s.pc = .done → s.tempUp ≤ s.visited ∧ s.visited < s.chain.segs.length ∧
      s.len = (s.through s.visited).length ∧
      s.buffer = (s.through s.visited).map some ++ [some 0]) := by
  have hInit : Since s₀ s₀ := by
    refine ⟨hStart.1, ?_, rfl, rfl, List.prefix_rfl⟩
    unfold At
    rw [hStart.2]
    trivial
  have hSince : Since s₀ s := foldlM_kept act (fun _ s => Since s₀ s) acts hInit hRun
    fun _ _ _ _ _ h hAct => h.act hAct
  refine ⟨hSince.at_.inBounds hSince.placed, fun hPc => ?_,
    ⟨hSince.tempUp.symm, hSince.offsetUp.symm, hSince.segs⟩, fun hPc => ?_⟩
  · obtain ⟨s', hSteps⟩ := hSince.at_.read hSince.placed hPc
    exact ⟨s', hSteps.read⟩
  · have hCopied := hSince.at_
    unfold At at hCopied
    rw [hPc] at hCopied
    have hBuffer := hCopied.buffer
    rw [hCopied.len, hCopied.length, Nat.sub_self] at hBuffer
    exact ⟨hCopied.cursor_le, hCopied.linked, hCopied.len, hBuffer⟩

/-- A segment is linked before the sizing pass reaches the end, and published before the copying
pass does. -/
theorem get_buffer_exact_append :
    ∃ s, [Act.read, .read, .read, .link [100], .read, .read, .read, .read, .read, .publish, .read,
        .read, .read, .read, .read].foldlM act
        ⟨⟨[[97, 98], [99]], 1⟩, 0, 1, .sizeFirst, 0, 0, [], 0⟩ = some s ∧
      s.buffer = [some 98, some 99, some 0] := by
  have hExact := get_buffer_exact ⟨⟨[[97, 98], [99]], 1⟩, 0, 1, .sizeFirst, 0, 0, [], 0⟩
    ⟨⟨Or.inl rfl, _, rfl, by decide⟩, rfl⟩
      [.read, .read, .read, .link [100], .read, .read, .read,
      .read, .read, .publish, .read, .read, .read, .read, .read] _ rfl
  exact ⟨_, rfl, (hExact.2.2.2 rfl).2.2.2⟩

end Reading

end Shutter.Stream
