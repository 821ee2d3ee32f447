import Shutter.Gunzip.Refill
import Mathlib.Data.Prod.Lex
import Mathlib.Logic.Function.Iterate

/-! Waiting for input ends.  A call of `waitbuf` that brings no byte and finds no end moves on to
the next block, or reads a size line further on in the block, or tells the block done, and then the
next call moves on. -/

namespace Shutter.Gunzip

open Shutter.Library
open Shutter.Stream (Segment)

/-! ### How far the input is -/

/-- `NEEDBITS` has a byte to take, or is told that there is none. -/
def State.Answered (s : State) : Prop := s.empty = true ∨ s.inptr < s.insize

/-- The blocks have bytes, and `Head_size` lies in the block. -/
structure Placed (s : State) : Prop where
  filled : ∀ block ∈ s.down, block ≠ []
  low : 0 ≤ s.headSize
  high : ∀ block, s.block = some block → s.headSize ≤ block.length

/-- The number of blocks from the current one on. -/
def State.blocksLeft (s : State) : Nat :=
  match s.currentBlock with
  | none => 0
  | some c => s.down.length - c

/-- Twice the bytes of a block behind `Head_size`, and one while `insize` does not tell them all. -/
def lineLeft (block : Segment) (headSize : Int) (insize : Nat) : Nat :=
  2 * (block.length - headSize).toNat +
    if insize = toUnsigned (block.length - headSize) then 0 else 1

/-- The same for the current block. -/
def State.lineLeft (s : State) : Nat :=
  match s.block with
  | none => 0
  | some block => Gunzip.lineLeft block s.headSize s.insize

/-- `t` is closer to the end of the input than `s`. -/
def Closer (t s : State) : Prop :=
  Prod.Lex (· < ·) (· < ·) (t.blocksLeft, t.lineLeft) (s.blocksLeft, s.lineLeft)

theorem closer_wf : WellFounded Closer :=
  InvImage.wf (fun s : State => (s.blocksLeft, s.lineLeft))
    (Prod.lex Nat.lt_wfRel Nat.lt_wfRel).wf

/-! ### One call -/

section Waitbuf

variable (m : Memory) {s : State}

theorem le_memmatchLoop (block : Segment) (c : UInt8) (count src : Nat) :
    src ≤ (memmatchLoop m block c count src).2 := by
  induction count generalizing src with
  | zero => exact Nat.le_refl src
  | succ count ih =>
    unfold memmatchLoop
    simp only
    split
    · exact Nat.le_refl src
    · exact Nat.le_trans (Nat.le_succ src) (ih (src + 1))

theorem lt_memmatch (block : Segment) (old : List UInt8) (src : Nat) (c : UInt8) (count : Nat) :
    src < (memmatch m block old src c count).2 :=
  Nat.lt_succ_of_le (le_memmatchLoop m block c (count - 1) src)

/-- What a size line leaves: `Head_size` is behind the line or at the end of the block, and there
are bytes or `insize` is 0. -/
structure Sized (block : Segment) (p : Nat) (s t : State) : Prop where
  down : t.down = s.down
  currentBlock : t.currentBlock = s.currentBlock
  low : (min p block.length : Nat) ≤ t.headSize
  high : t.headSize ≤ block.length
  answered : t.insize = 0 ∨ t.inptr < t.insize

theorem chunkHeader_sized (block : Segment) (size : List UInt8) (p : Nat) :
    Triple (fun t => t = s) (chunkHeader m block size p) (fun _ t => Sized block p s t)
      fun _ _ => False := by
  unfold chunkHeader
  simp only
  generalize hLine : (if strtol 16 (Acsm.cstr size) = 0 ∧ p = 2 then
    ((memmatch m block size p 10 32).2, strtol 16 (Acsm.cstr (memmatch m block size p 10 32).1))
    else (p, strtol 16 (Acsm.cstr size))) = line
  have hp : p ≤ line.1 := by
    rw [← hLine]
    split
    · exact Nat.le_of_lt (lt_memmatch m block size p 10 32)
    · exact Nat.le_refl p
  obtain ⟨q, chunk⟩ := line
  replace hp : p ≤ q := hp
  simp only
  generalize hHead : (if List.length block = 2 ∧ chunk = 0 then List.length block
    else min q (List.length block)) = headSize
  have hBounds : min p block.length ≤ headSize ∧ headSize ≤ block.length := by
    rw [← hHead]
    split
    · exact ⟨Nat.min_le_right _ _, Nat.le_refl _⟩
    · exact ⟨by omega, Nat.min_le_right _ _⟩
  have hLow : ((min p block.length : Nat) : Int) ≤ headSize := Int.ofNat_le.mpr hBounds.1
  have hHigh : (headSize : Int) ≤ block.length := Int.ofNat_le.mpr hBounds.2
  refine Triple.bind (Triple.modify_eq s) fun _ => Triple.ite (fun _ => ?_) fun _ => ?_
  · refine Triple.modify fun t ht => ?_
    subst ht
    exact ⟨rfl, rfl, hLow, hHigh, Nat.eq_zero_or_pos _⟩
  · refine Triple.modify fun t ht => ?_
    subst ht
    exact ⟨rfl, rfl, hLow, hHigh, Or.inl rfl⟩

/-- What a call leaves in a block: bytes, or the end, or less of the block. -/
structure Filled (block : Segment) (left : Nat) (s t : State) : Prop where
  down : t.down = s.down
  currentBlock : t.currentBlock = s.currentBlock
  low : 0 ≤ t.headSize
  high : t.headSize ≤ block.length
  answered : t.Answered ∨ lineLeft block t.headSize t.insize < left

/-- A size line behind `Head_size` leaves less of the block, or tells it done. -/
theorem Sized.filled {block : Segment} {p : Nat} {t u : State} (h : Sized block p t u)
    (hDown : t.down = s.down) (hCurrent : t.currentBlock = s.currentBlock)
    (hp : s.headSize < p) (hLow : 0 ≤ s.headSize) (hHigh : s.headSize ≤ block.length)
    (hShort : s.insize ≠ toUnsigned (block.length - s.headSize)) :
    Filled block (lineLeft block s.headSize s.insize) s u := by
  have hSized := h.low
  refine ⟨h.down.trans hDown, h.currentBlock.trans hCurrent, by omega, h.high, ?_⟩
  rcases h.answered with hZero | hBytes
  · refine Or.inr ?_
    have hLe := h.high
    unfold lineLeft
    rw [hZero, if_neg hShort]
    by_cases hEnd : u.headSize = block.length
    · rw [hEnd, Int.sub_self]
      simp [toUnsigned]
    · split
      · omega
      · omega
  · exact Or.inl (Or.inr hBytes)

/-- The size line of a new block. -/
theorem fillBuffer_next {block : Segment} (hBlock : block ≠ []) :
    Triple (fun t => t = s) (fillBuffer m true block)
      (fun _ t => Filled block (2 * block.length + 2) s t) fun _ _ => False := by
  have hPos := List.length_pos_iff.mpr hBlock
  unfold fillBuffer
  refine Triple.bind (Triple.modify_eq s) fun _ => Triple.get_bind fun t ht => ?_
  subst ht
  refine Triple.ite (fun _ => Triple.modify fun t ht => ?_) fun _ => Triple.ite (fun hChunk =>
    Triple.modify fun t ht => ?_) fun _ => Triple.ite (fun _ => ?_) fun hNext => absurd rfl hNext
  · subst ht
    exact ⟨rfl, rfl, Int.le_refl 0, Int.natCast_nonneg _, Or.inl (Or.inr hPos)⟩
  · subst ht
    exact ⟨rfl, rfl, Int.le_refl 0, Int.natCast_nonneg _,
      Or.inl (Or.inr (Int.pos_iff_toNat_pos.mp hChunk))⟩
  · refine (chunkHeader_sized m block _ _).conseq (fun _ h => h) (fun _ t ht => ?_) fun _ _ h => h
    have hLow := ht.low
    refine ⟨ht.down, ht.currentBlock, by omega, ht.high, Or.inr ?_⟩
    unfold lineLeft
    split
    · omega
    · omega

/-- The same block again, without a chunk and with `insize` short of its end. -/
theorem fillBuffer_same {block : Segment} (hBlock : block ≠ []) (hChunk : s.chunkSize = 0)
    (hLow : 0 ≤ s.headSize) (hHigh : s.headSize ≤ block.length)
    (hShort : s.insize ≠ toUnsigned (block.length - s.headSize)) :
    Triple (fun t => t = s) (fillBuffer m false block)
      (fun _ t => Filled block (lineLeft block s.headSize s.insize) s t) fun _ _ => False := by
  have hPos := List.length_pos_iff.mpr hBlock
  unfold fillBuffer
  refine Triple.bind (Triple.modify_eq s) fun _ => Triple.get_bind fun t ht => ?_
  subst ht
  refine Triple.ite (fun hLe => ?_) fun _ => Triple.ite (fun hGt => ?_) fun _ =>
    Triple.ite (fun hNext => absurd hNext Bool.false_ne_true) fun _ => Triple.ite (fun _ =>
    Triple.ite (fun _ => Triple.modify fun t ht => ?_) fun _ => ?_) fun _ =>
    Triple.modify fun t ht => ?_
  · -- the chunk is empty, and the block is not
    simp only [hChunk] at hLe
    simp [toUnsigned] at hLe
    exact absurd hLe hBlock
  · simp only [hChunk] at hGt
    exact absurd hGt (Int.lt_irrefl 0)
  · subst ht
    exact ⟨rfl, rfl, hLow, hHigh, Or.inl (Or.inl rfl)⟩
  · have hFirst := lt_memmatch m block m.array (s.insize + s.headSize + 2).toNat 10 32
    generalize hLine : memmatch m block m.array _ 10 32 = line
    rw [hLine] at hFirst
    obtain ⟨size, p⟩ := line
    simp only at hFirst ⊢
    generalize hSecond : (if strtol 16 (Acsm.cstr size) = 0 then memmatch m block size p 10 32
      else (size, p)) = line
    have hp : p ≤ line.2 := by
      rw [← hSecond]
      split
      · exact Nat.le_of_lt (lt_memmatch m block size p 10 32)
      · exact Nat.le_refl p
    refine (chunkHeader_sized m block line.1 line.2).conseq (fun _ h => h) (fun _ t ht => ?_)
      fun _ _ h => h
    exact ht.filled rfl rfl (by omega) hLow hHigh hShort
  · subst ht
    refine ⟨rfl, rfl, hLow, hHigh, Or.inr ?_⟩
    unfold lineLeft
    rw [if_pos rfl, if_neg hShort]
    exact Nat.lt_succ_self _

/-- The state that a call fills in the block `c`. -/
theorem Filled.placed {block : Segment} {left c : Nat} {t u : State} (h : Filled block left t u)
    (hPlaced : Placed s) (hDown : t.down = s.down) (hCurrent : t.currentBlock = some c)
    (hBlock : s.down[c]? = some block) : Placed u ∧ u.block = some block := by
  have hSame : u.block = some block := by
    rw [State.block, h.currentBlock, hCurrent, h.down, hDown]
    exact hBlock
  refine ⟨⟨?_, h.low, fun block' hBlock' => ?_⟩, hSame⟩
  · rw [h.down, hDown]
    exact hPlaced.filled
  · obtain rfl := Option.some.inj (hSame.symm.trans hBlock')
    exact h.high

/-- A call of `waitbuf` brings a byte, or tells that there is none, or comes closer to the end. -/
theorem waitbuf_closer (h : Placed s) :
    Triple (fun t => t = s) (waitbuf m) (fun _ t => Placed t ∧ (t.Answered ∨ Closer t s))
      fun _ _ => False := by
  unfold waitbuf
  refine Triple.bind (Triple.modify_eq s) fun _ => Triple.get_bind fun t ht => ?_
  subst ht
  generalize max 0 (if 0 < s.chunkSize then toInt (s.chunkSize - s.inptr) else s.chunkSize) = chunk
  change Triple _ (match s.block with
    | none => _
    | some block => _) _ _
  have hEmpty : ∀ gzipFlag, Placed { s with chunkSize := chunk, empty := true, gzipFlag } :=
    fun _ => ⟨h.filled, h.low, h.high⟩
  cases hBlock : s.block with
  | none => exact Triple.modify fun t ht => ht ▸ ⟨hEmpty _, Or.inl (Or.inl rfl)⟩
  | some block =>
    obtain ⟨c, hCurrent, hGet⟩ := Option.bind_eq_some_iff.mp hBlock
    have hNonempty : ∀ {i : Nat} {b : Segment}, s.down[i]? = some b → b ≠ [] := fun hi =>
      h.filled _ (List.mem_of_getElem? hi)
    refine Triple.ite (fun _ => ?_) fun hStay => ?_
    · change Triple _ (match s.nextBlock with
        | none => _
        | some next => _) _ _
      cases hNext : s.nextBlock with
      | none => exact Triple.modify fun t ht => ht ▸ ⟨hEmpty _, Or.inl (Or.inl rfl)⟩
      | some next =>
        rw [State.nextBlock, hCurrent, Option.bind_some] at hNext
        split at hNext
        · rename_i hLess
          obtain rfl := Option.some.inj hNext
          obtain ⟨b, hb⟩ : ∃ b, s.down[c + 1]? = some b :=
            ⟨_, List.getElem?_eq_getElem hLess⟩
          refine Triple.bind (Triple.modify_eq _) fun _ => ?_
          simp only [hb, Option.getD_some]
          refine (fillBuffer_next m (hNonempty hb)).conseq (fun _ h => h) (fun _ u hu => ?_)
            fun _ _ h => h
          obtain ⟨hPlaced, -⟩ := hu.placed h rfl rfl hb
          refine ⟨hPlaced, hu.answered.imp_right fun _ => Prod.Lex.left _ _ ?_⟩
          simp only [State.blocksLeft, hu.currentBlock, hu.down, hCurrent]
          omega
        · cases hNext
    · simp only [not_or, not_not] at hStay
      refine (fillBuffer_same (s := { s with chunkSize := chunk }) m (hNonempty hGet) hStay.1 h.low
        (h.high _ hBlock) hStay.2.1).conseq (fun _ h => h) (fun _ u hu => ?_) fun _ _ h => h
      obtain ⟨hPlaced, hSame⟩ := hu.placed h rfl hCurrent hGet
      refine ⟨hPlaced, hu.answered.imp_right fun hLess => ?_⟩
      unfold Closer
      rw [show u.blocksLeft = s.blocksLeft by
        simp only [State.blocksLeft, hu.currentBlock, hu.down, hCurrent]]
      refine Prod.Lex.right _ ?_
      simp only [State.lineLeft, hSame, hBlock]
      exact hLess

end Waitbuf

/-! ### The calls of one request -/

/-- The state behind a call of `waitbuf`. -/
def waited (m : Memory) (s : State) : State := (waitbuf m).final s

theorem waited_closer (m : Memory) {s : State} (h : Placed s) :
    waitbuf m s = .ok () (waited m s) ∧ Placed (waited m s) ∧
      ((waited m s).Answered ∨ Closer (waited m s) s) := by
  have hEnds := (waitbuf_closer m h).ends s rfl
  unfold waited Code.final
  cases hRun : waitbuf m s with
  | ok _ t =>
    rw [hRun] at hEnds
    exact ⟨rfl, hEnds⟩
  | error _ t =>
    rw [hRun] at hEnds
    exact hEnds.elim

/-- Calls in a row come to an answer. -/
theorem waited_answered (m : Memory) (s : State) (h : Placed s) :
    ∃ k, ((waited m)^[k] s).Answered := by
  induction s using closer_wf.induction with
  | _ s ih =>
    obtain ⟨-, hPlaced, hAnswered | hCloser⟩ := waited_closer m h
    · exact ⟨1, hAnswered⟩
    · obtain ⟨k, hk⟩ := ih _ hCloser hPlaced
      exact ⟨k + 1, hk⟩

section NeedBits

variable {env : Env} {n fuel : Nat} {s : State}

theorem needBits_done (h : ¬s.bk < n) : needBits env n (fuel + 1) s = .ok () s := by
  change (if s.bk < n then _ else _ : Code Unit) s = _
  rw [if_neg h]
  rfl

/-- The state in which `NEEDBITS` has taken a byte. -/
def State.byteTaken (s : State) : State :=
  let c := s.inbuf[s.inptr]?.getD 0
  { s with bb := s.bb ||| (c.toNat <<< s.bk), bk := s.bk + 8, inptr := s.inptr + 1,
           taken := s.taken ++ [c] }

theorem needBits_byte (h : s.bk < n) (hByte : s.inptr < s.insize) :
    needBits env n (fuel + 1) s = needBits env n fuel s.byteTaken := by
  change (if s.bk < n then _ else _ : Code Unit) s = _
  rw [if_pos h, if_pos hByte]
  rfl

/-- The state in which `NEEDBITS` calls `waitbuf`. -/
def State.saved (s : State) : State :=
  { s with head := { s.head with flag := s.flag, bb := s.bb, bk := s.bk } }

/-- `NEEDBITS` behind a call of `waitbuf`. -/
theorem needBits_wait (h : s.bk < n) (hByte : ¬s.inptr < s.insize) {t : State}
    (hWait : env.waitbuf s.saved = .ok () t) :
    needBits env n (fuel + 1) s = (onlyIf (t.empty = true) () (do
        modify fun s => { s with empty := false }
        record (.starved s.flag)
        ret 0) >>= fun _ => needBits env n fuel) t := by
  change (if s.bk < n then _ else _ : Code Unit) s = _
  rw [if_pos h, if_neg hByte]
  change EStateM.bind env.waitbuf _ s.saved = _
  unfold EStateM.bind
  rw [hWait]
  rfl

theorem needBits_starved (h : s.bk < n) (hByte : ¬s.inptr < s.insize) {t : State}
    (hWait : env.waitbuf s.saved = .ok () t) (hEmpty : t.empty = true) :
    needBits env n (fuel + 1) s =
      .error (.ret 0) { t with empty := false, trace := t.trace ++ [.starved s.flag] } := by
  rw [needBits_wait h hByte hWait, onlyIf, if_pos hEmpty]
  rfl

theorem needBits_waited (h : s.bk < n) (hByte : ¬s.inptr < s.insize) {t : State}
    (hWait : env.waitbuf s.saved = .ok () t) (hEmpty : ¬t.empty = true) :
    needBits env n (fuel + 1) s = needBits env n fuel t := by
  rw [needBits_wait h hByte hWait, onlyIf, if_neg hEmpty]
  rfl

/-- With enough rounds, the loop of `NEEDBITS` ends. -/
def RoundsEnd (env : Env) (n : Nat) (s : State) : Prop :=
  ∃ rounds, ∀ fuel, rounds ≤ fuel → ∀ t, needBits env n fuel s ≠ .error .spin t

theorem RoundsEnd.of_step {t : State} (h : RoundsEnd env n t)
    (hStep : ∀ fuel, needBits env n (fuel + 1) s = needBits env n fuel t) :
    RoundsEnd env n s := by
  obtain ⟨rounds, hRounds⟩ := h
  refine ⟨rounds + 1, fun fuel hFuel u => ?_⟩
  obtain ⟨fuel, rfl⟩ : ∃ k, fuel = k + 1 := ⟨fuel - 1, by omega⟩
  rw [hStep]
  exact hRounds fuel (by omega) u

theorem RoundsEnd.of_exit
    (hStep : ∀ fuel, ∀ t, needBits env n (fuel + 1) s ≠ .error .spin t) :
    RoundsEnd env n s := by
  refine ⟨1, fun fuel hFuel u => ?_⟩
  obtain ⟨fuel, rfl⟩ : ∃ k, fuel = k + 1 := ⟨fuel - 1, by omega⟩
  exact hStep fuel u

end NeedBits

/-- The loop of `NEEDBITS` ends: a byte brings it closer to its bits, and a call of `waitbuf` to a
byte or to the end of the input. -/
theorem needBits_ends (m : Machine) (n : Nat) (s : State) (h : Placed s) :
    RoundsEnd m.env n s := by
  induction hBits : n - s.bk using Nat.strong_induction_on generalizing s with
  | _ bits ihBits =>
    have hTake : ∀ s, Placed s → n - s.bk = bits → s.inptr < s.insize →
      RoundsEnd m.env n s := by
      intro s h hBits hByte
      by_cases hMore : s.bk < n
      · have hLess : n - s.byteTaken.bk < bits := by
          have hBk : s.byteTaken.bk = s.bk + 8 := rfl
          omega
        exact (ihBits _ hLess s.byteTaken ⟨h.filled, h.low, h.high⟩ rfl).of_step fun _ =>
          needBits_byte hMore hByte
      · exact RoundsEnd.of_exit fun _ t hRun => by
          rw [needBits_done hMore] at hRun
          cases hRun
    induction s using closer_wf.induction with
    | _ s ih =>
      by_cases hByte : s.inptr < s.insize
      · exact hTake s h hBits hByte
      by_cases hMore : s.bk < n
      · obtain ⟨hWait, hPlaced, hNext⟩ :=
          waited_closer m.toMemory (s := s.saved) ⟨h.filled, h.low, h.high⟩
        have hEnv : m.env.waitbuf s.saved = .ok () (waited m.toMemory s.saved) := hWait
        have hRefilled := (m.refills s.saved).ends s.saved rfl
        have hBk : n - (waited m.toMemory s.saved).bk = bits := by
          rw [hEnv] at hRefilled
          rw [hRefilled.bk]
          exact hBits
        by_cases hEmpty : (waited m.toMemory s.saved).empty = true
        · exact RoundsEnd.of_exit fun _ t hSpin => by
            rw [needBits_starved hMore hByte hEnv hEmpty] at hSpin
            cases hSpin
        · refine RoundsEnd.of_step ?_ fun _ => needBits_waited hMore hByte hEnv hEmpty
          rcases hNext with hAnswered | hCloser
          · exact hTake _ hPlaced hBk (hAnswered.resolve_left hEmpty)
          · exact ih _ hCloser hPlaced hBk
      · exact RoundsEnd.of_exit fun _ t hRun => by
          rw [needBits_done hMore] at hRun
          cases hRun

/-- `NEEDBITS` never waits for ever: the calls of `waitbuf` in a row come to a byte or to `Empty`,
and the loop ends. -/
theorem waiting_ends (m : Machine) (s : State) (h : Placed s) :
    (∃ k, ((waited m.toMemory)^[k] s).Answered) ∧ ∀ n, RoundsEnd m.env n s :=
  ⟨waited_answered m.toMemory s h, fun n => needBits_ends m n s h⟩

/-- Two blocks: all bytes of the first have been read, and the second is a size line with a byte
behind it. -/
theorem waiting_ends_two :
    let s := { State.ofBlock [49, 13, 10] with
      down := [[49, 13, 10], [49, 13, 10, 97]], inptr := 3, chunkSize := 0 }
    (∃ k, ((waited quiet.toMemory)^[k] s).Answered) ∧ ∀ n, RoundsEnd quiet.env n s :=
  waiting_ends quiet _ ⟨by decide, by decide, fun block hBlock => by
    obtain rfl := Option.some.inj hBlock
    decide⟩

end Shutter.Gunzip
