import Shutter.Gunzip.Deflate

/-! The header of a block with its own codes, and what `inflate_dynamic` reads of it: the lengths of
the two codes, which are written with a third one. -/

namespace Shutter.Gunzip

open Shutter.Library

/-! ### Headers -/

/-- A code of the bit length alphabet: a length, or the last length or 0 a number of times, with the
extra bits. -/
inductive Run where
  | length (k : Nat)
  | again (x : Nat)
  | zeros (x : Nat)
  | manyZeros (x : Nat)
  deriving DecidableEq

namespace Run

/-- The value of the code. -/
def value : Run → Nat
  | length k => k
  | again _ => 16
  | zeros _ => 17
  | manyZeros _ => 18

/-- The extra bits are as many as the code has. -/
def Valid : Run → Prop
  | length k => k < 16
  | again x => x < 2 ^ 2
  | zeros x => x < 2 ^ 3
  | manyZeros x => x < 2 ^ 7

def extra : Run → List Bool
  | length _ => []
  | again x => bitsOf 2 x
  | zeros x => bitsOf 3 x
  | manyZeros x => bitsOf 7 x

def bits (cl : List Nat) (r : Run) : List Bool := codeword cl r.value ++ r.extra

/-- The lengths that the code stands for, behind the length `last`. -/
def lengths (last : Nat) : Run → List Nat
  | length k => [k]
  | again x => List.replicate (3 + x) last
  | zeros x => List.replicate (3 + x) 0
  | manyZeros x => List.replicate (11 + x) 0

/-- The last length behind the code. -/
def next (last : Nat) : Run → Nat
  | length k => k
  | again _ => last
  | _ => 0

/-- The lengths that the codes stand for. -/
def expand : Nat → List Run → List Nat
  | _, [] => []
  | last, r :: runs => r.lengths last ++ expand (r.next last) runs

end Run

/-- The header of a block: the numbers of the two kinds of lengths, the lengths of the third code in
the order of `border`, and what is written with it. -/
structure BlockHeader where
  lits : Nat
  dists : Nat
  order : List Nat
  runs : List Run

namespace BlockHeader

variable (h : BlockHeader)

/-- The lengths of the third code. -/
def bitLengths : List Nat := (List.range 19).map fun v => (h.order[border.idxOf v]?).getD 0

def all : List Nat := Run.expand 0 h.runs

/-- The lengths of the literal and length codes. -/
def literal : List Nat := h.all.take h.lits

/-- The lengths of the distance codes. -/
def distance : List Nat := h.all.drop h.lits

def bits : List Bool :=
  bitsOf 5 (h.lits - 257) ++ (bitsOf 5 (h.dists - 1) ++ (bitsOf 4 (h.order.length - 4) ++
    (h.order.flatMap (bitsOf 3) ++ h.runs.flatMap (Run.bits h.bitLengths))))

/-- The numbers are within their bounds, all codes are in use, and no patterns are left, except
beside a distance code of one bit that is alone.  The format also lets a block have no distance
code, or one among lengths of 0.  These are left out: for the first `huft_build` has no table to
give, and `inflate_dynamic` stops before the block; for the second it reads an entry of `v` that it
has not written. -/
structure Valid : Prop where
  lits_le : 257 ≤ h.lits ∧ h.lits ≤ 286
  dists_le : 1 ≤ h.dists ∧ h.dists ≤ 30
  order_le : 4 ≤ h.order.length ∧ h.order.length ≤ 19
  order_lt : ∀ k ∈ h.order, k < 2 ^ 3
  runs_valid : ∀ r ∈ h.runs, r.Valid ∧ 0 < codeLength h.bitLengths r.value
  total : h.all.length = h.lits + h.dists
  bits_full : kraft bmax h.bitLengths = 2 ^ bmax
  literal_full : kraft bmax h.literal = 2 ^ bmax
  distance_full : kraft bmax h.distance = 2 ^ bmax ∨ h.distance = [1]
  end_coded : 0 < codeLength h.literal 256

end BlockHeader

/-! ### Rules -/

/-- Nothing has been stored or called, and `K` is kept.  The next bits are those of `str`, of which
`k` are in the buffer, at the flag and with a head of `H`. -/
structure Ahead (b : Buffers) (made : List (List (UInt8 × Nat))) (K : Kept) (fuel k : Nat)
    (str : List Bool) (flag : Nat) (H : Head → Prop) (s : State) : Prop where
  holding : Holding b made s
  tidy : s.source.Tidy
  stream : s.source.stream = str
  room : s.source.input.length < fuel
  read : k ≤ s.bk
  flag_eq : s.flag = flag
  kept : s.kept = K
  head : H s.head

section Rules

variable {env : Env} {b : Buffers} {made : List (List (UInt8 × Nat))} {K : Kept} {k n flag : Nat}
  {str : List Bool} {H I : Head → Prop} {E : Exit → State → Prop}

theorem Ahead.congr {s t : State} {k' flag' : Nat} {str' : List Bool}
    (h : Ahead b made K env.fuel k str flag H s) (hTokens : SameTokens s t) (hTidy : t.source.Tidy)
    (hStream : t.source.stream = str') (hInput : t.source.input.length ≤ s.source.input.length)
    (hRead : k' ≤ t.bk) (hFlag : t.flag = flag') (hKept : t.kept = s.kept) (hHead : I t.head) :
    Ahead b made K env.fuel k' str' flag' I t :=
  ⟨h.holding.congr hTokens, hTidy, hStream, Nat.lt_of_le_of_lt hInput h.room, hRead, hFlag,
    hKept.trans h.kept, hHead⟩

theorem ahead_modifyHead {f : Head → Head} (hKeeps : KeepsHead f) (hf : ∀ h, H h → I (f h)) :
    Triple (Ahead b made K env.fuel k str flag H) (modifyHead f)
      (fun _ => Ahead b made K env.fuel k str flag I) E :=
  Triple.modify fun s hs => hs.congr ⟨rfl, rfl, rfl, rfl, rfl⟩ hs.tidy hs.stream
    (Nat.le_refl _) hs.read
    hs.flag_eq (hKeeps.kept s) (hf _ hs.head)

theorem ahead_setFlag (flag' : Nat) : Triple (Ahead b made K env.fuel k str flag H) (setFlag flag')
    (fun _ => Ahead b made K env.fuel k str flag' H) E :=
  Triple.modify fun _ hs => hs.congr ⟨rfl, rfl, rfl, rfl, rfl⟩ hs.tidy hs.stream
    (Nat.le_refl _) hs.read rfl
    rfl hs.head

/-- `NEEDBITS` gets bits that are there. -/
theorem ahead_needBits (hn : n < 25) (hEnough : n ≤ str.length) :
    Triple (Ahead b made K env.fuel k str flag H) (needBits env n env.fuel)
      (fun _ => Ahead b made K env.fuel n str flag H) E := by
  refine Triple.of_state fun s hs => ?_
  obtain ⟨src, hFill, hSame, hRead, hTidy⟩ :=
    fill_stream hs.tidy hn (by rw [hs.stream]; exact hEnough)
  refine (needBits_fill hFill hs.room).conseq (fun _ ht => ht)
    (fun _ t ⟨hSource, inptr, taken, ht⟩ => ?_)
    fun _ _ h => h.elim
  have hTokens : SameTokens s t := by subst ht; exact ⟨rfl, rfl, rfl, rfl, rfl⟩
  have hFlag : t.flag = s.flag := by subst ht; rfl
  have hHead : t.head = s.head := by subst ht; rfl
  have hBits : t.bk = src.bk := by subst ht; rfl
  have hKept : t.kept = s.kept := by subst ht; rfl
  exact hs.congr hTokens (hSource ▸ hTidy) (by rw [hSource, hSame, hs.stream])
    (by rw [hSource]; exact fill_input hFill) (hBits ▸ hRead) (hFlag.trans hs.flag_eq) hKept
    (hHead ▸ hs.head)

theorem ahead_dumpBits (hn : n ≤ k) :
    Triple (Ahead b made K env.fuel k str flag H) (dumpBits n)
      (fun _ => Ahead b made K env.fuel (k - n) (str.drop n) flag H) E := by
  refine Triple.modify fun s hs => ?_
  have hIn : n ≤ s.source.bk := Nat.le_trans hn hs.read
  obtain ⟨hDrop, hTidy, hLeft⟩ := dump_stream hs.tidy hIn
  have hRead : k - n ≤ (s.source.dump n).bk := by
    rw [hLeft]
    exact Nat.sub_le_sub_right hs.read n
  exact hs.congr ⟨rfl, rfl, rfl, rfl, rfl⟩ hTidy (hDrop.trans (congrArg _ hs.stream))
    (Nat.le_refl _) hRead
    hs.flag_eq rfl hs.head

theorem ahead_bits {α : Type} {f : Nat → Code α} {Q : α → State → Prop} (hn : n ≤ k)
    (hf : Triple (Ahead b made K env.fuel k str flag H) (f (ofBits (str.take n))) Q E) :
    Triple (Ahead b made K env.fuel k str flag H) (bits n >>= f) Q E :=
  Triple.bind_eq (Triple.get_bind' fun s hs => Triple.pure fun t ht => ⟨by
    rw [← hs.stream, ← bits_stream (Nat.le_trans hn hs.read)]
    rfl, ht⟩) hf

theorem Ahead.mono {s : State} {k' : Nat} (h : Ahead b made K env.fuel k str flag H s)
    (hk : k' ≤ k) (hH : ∀ h, H h → I h) : Ahead b made K env.fuel k' str flag I s :=
  { h with read := Nat.le_trans hk h.read, head := hH _ h.head }

/-- A part of `inflate_dynamic` that runs from its start. -/
theorem ahead_fromFlag {α : Type} {flag' : Nat} {a : α} {x : Code α} {Q : α → State → Prop}
    (hx : Triple (Ahead b made K env.fuel k str 0 H) x Q E) :
    Triple (Ahead b made K env.fuel k str 0 H) (fromFlag flag' a x) Q E :=
  Triple.get_bind' fun _ hs => Triple.ite (fun _ => hx) fun hNot => absurd (Or.inl hs.flag_eq) hNot

/-- A value at its flag, whose field may be one that is kept. -/
theorem ahead_readKept {L : Kept} {flag' x : Nat} {store : Nat → Head → Head} (hn : n < 25)
    (hx : x < 2 ^ n)
    (hKept : ∀ s : State, s.kept = K → State.kept { s with head := store x s.head } = L)
    (hStore : ∀ h, H h → I (store x h)) :
    Triple (Ahead b made K env.fuel 0 (bitsOf n x ++ str) 0 H) (readField env flag' n store)
      (fun _ => Ahead b made L env.fuel 0 str 0 I) E := by
  have hLength : (bitsOf n x).length = n := bitsOf_length n x
  refine ahead_fromFlag (Triple.bind (ahead_setFlag flag') fun _ => Triple.bind
    (ahead_needBits hn (by rw [List.length_append]; omega)) fun _ =>
      Triple.bind (ahead_setFlag 0) fun _ => ?_)
  refine ahead_bits (Nat.le_refl n) ?_
  rw [List.take_left' hLength, ofBits_bitsOf, Nat.mod_eq_of_lt hx]
  refine Triple.bind (Q := fun _ => Ahead b made L env.fuel n (bitsOf n x ++ str) 0 I)
    (Triple.modify
    fun s hs => ⟨hs.holding.congr ⟨rfl, rfl, rfl, rfl, rfl⟩, hs.tidy, hs.stream,
      hs.room, hs.read,
      hs.flag_eq, hKept s hs.kept, hStore _ hs.head⟩) fun _ => ?_
  refine (ahead_dumpBits (Nat.le_refl n)).conseq (fun _ hs => hs) (fun _ _ hs => ?_) fun _ _ h => h
  rw [List.drop_left' hLength] at hs
  exact hs.mono (Nat.zero_le _) fun _ h => h

theorem ahead_readField {flag' x : Nat} {store : Nat → Head → Head} (hn : n < 25)
    (hx : x < 2 ^ n) (hKeeps : KeepsHead (store x)) (hStore : ∀ h, H h → I (store x h)) :
    Triple (Ahead b made K env.fuel 0 (bitsOf n x ++ str) 0 H) (readField env flag' n store)
      (fun _ => Ahead b made K env.fuel 0 str 0 I) E :=
  ahead_readKept hn hx (fun s hs => (hKeeps.kept s).trans hs) hStore

/-- The state at the start of a part, and behind it. -/
theorem Coming.ahead {s : State} (h : Coming K str s) (hHolding : Holding b made s)
    (hFuel : str.length < env.fuel) : Ahead b made K env.fuel 0 str 0 (fun _ => True) s := by
  have hInput := h.input
  exact ⟨hHolding, h.tidy, h.stream, by omega, Nat.zero_le _, h.flag_eq, h.kept, trivial⟩

theorem Ahead.coming {s : State} (h : Ahead b made K env.fuel k str 0 H s) : Coming K str s :=
  ⟨h.tidy, h.stream, h.flag_eq, h.kept⟩

end Rules

/-! ### The third code -/

/-- The head has the numbers of the header. -/
def Counts (h : BlockHeader) (head : Head) : Prop :=
  head.nl = h.lits ∧ head.nd = h.dists ∧ head.nb = h.order.length

/-- The lengths of the third code are there up to index `i` of `border`. -/
def Ordered (h : BlockHeader) (i : Nat) (head : Head) : Prop :=
  Counts h head ∧ ∀ j < i, head.ll (border[j]?.getD 0) = h.order[j]?.getD 0

theorem border_inj : ∀ i < 19, ∀ j < 19, border[i]?.getD 0 = border[j]?.getD 0 →
    i = j := by decide

theorem border_idxOf : ∀ v < 19, border.idxOf v < 19 ∧ border[border.idxOf v]?.getD 0 =
    v := by decide

section BitLengths

variable {env : Env} {b : Buffers} {made : List (List (UInt8 × Nat))} {K : Kept} {str : List Bool}
  {h : BlockHeader} {E : Exit → State → Prop}

/-- The next length of the third code. -/
theorem ordered_set {i x : Nat} {head : Head} (hi : i < 19) (hOrdered : Ordered h i head)
    (hx : h.order[i]?.getD 0 = x) :
    Ordered h (i + 1)
      { head with ll := fun k => if k = border[i]?.getD 0 then x else head.ll k } := by
  refine ⟨hOrdered.1, fun j hj => ?_⟩
  by_cases hSame : j = i
  · subst hSame
    exact (if_pos rfl).trans hx.symm
  · have hNe : border[j]?.getD 0 ≠ border[i]?.getD 0 := fun hEq =>
      hSame (border_inj j (by omega) i hi hEq)
    exact (if_neg hNe).trans (hOrdered.2 j (by omega))

theorem ahead_bitLengths (hLt : ∀ k ∈ h.order, k < 2 ^ 3)
    (hLe : h.order.length ≤ 19) {i k : Nat} (hk : i + k = h.order.length) :
    Triple (Ahead b made K env.fuel 0 ((h.order.drop i).flatMap (bitsOf 3) ++ str) 0 (Ordered h i))
      (bitLengths env h.order.length k)
      (fun _ => Ahead b made K env.fuel 0 str 0 (Ordered h h.order.length)) E := by
  induction k generalizing i with
  | zero =>
    obtain rfl : i = h.order.length := hk
    rw [List.drop_length]
    exact Triple.pure fun _ hs => hs
  | succ k ih =>
    have hi : i < h.order.length := by omega
    have hx : h.order[i]?.getD 0 = h.order[i] := by rw [List.getElem?_eq_getElem hi]; rfl
    have hSmall : h.order[i] < 2 ^ 3 := hLt _ (List.getElem_mem hi)
    have hIndex : h.order.length - (k + 1) = i := by omega
    have hLength : (bitsOf 3 h.order[i]).length = 3 := bitsOf_length ..
    rw [List.drop_eq_getElem_cons hi, List.flatMap_cons, List.append_assoc, bitLengths]
    simp only [hIndex]
    refine Triple.bind (ahead_setFlag 6) fun _ =>
      Triple.bind (ahead_modifyHead (I := Ordered h i) (fun _ => ⟨rfl, rfl⟩)
      fun _ hs => hs) fun _ =>
        Triple.bind (ahead_needBits (by decide) (by rw [List.length_append]; omega))
      fun _ => Triple.bind (ahead_setFlag 0) fun _ => ahead_bits (Nat.le_refl 3) ?_
    rw [List.take_left' hLength, ofBits_bitsOf, Nat.mod_eq_of_lt hSmall]
    refine Triple.bind (ahead_modifyHead (I := Ordered h (i + 1))
      (fun _ => ⟨rfl, rfl⟩) fun _ hs =>
      ordered_set (by omega) hs hx) fun _ =>
        Triple.bind (ahead_dumpBits (Nat.le_refl 3)) fun _ => ?_
    rw [List.drop_left' hLength]
    exact ih (by omega)

theorem ahead_clearBitLengths {i k : Nat} (hFrom : h.order.length ≤ i) (hk : i + k = 19) :
    Triple (Ahead b made K env.fuel 0 str 0 (Ordered h i)) (clearBitLengths (List.range' i k))
      (fun _ => Ahead b made K env.fuel 0 str 0 (Ordered h 19)) E := by
  induction k generalizing i with
  | zero =>
    obtain rfl : i = 19 := hk
    exact Triple.pure fun _ hs => hs
  | succ k ih =>
    have hx : h.order[i]?.getD 0 = 0 := by rw [List.getElem?_eq_none hFrom]; rfl
    refine Triple.bind (ahead_modifyHead (I := Ordered h (i + 1))
      (fun _ => ⟨rfl, rfl⟩) fun _ hs =>
      ordered_set (by omega) hs hx) fun _ => ih (by omega) (by omega)

/-- The lengths in the head are those of the third code. -/
theorem ordered_bitLengths {head : Head} (hOrdered : Ordered h 19 head) :
    (List.range 19).map head.ll = h.bitLengths := by
  refine List.map_congr_left fun v hv => ?_
  obtain ⟨hLt, hBorder⟩ := border_idxOf v (List.mem_range.mp hv)
  rw [← hOrdered.2 _ hLt, hBorder]

theorem kraft_used {max : Nat} {b : List Nat} (hKraft : kraft max b ≠ 0) :
    ∃ k ∈ b, k ≠ 0 := by
  by_contra hNone
  push Not at hNone
  refine hKraft (List.sum_eq_zero fun x hx => ?_)
  obtain ⟨k, hk, rfl⟩ := List.mem_map.mp hx
  exact if_pos (hNone k hk)

theorem enters_simple {s v : Nat} {d e : Option (List Nat)} (hv : v < s) : Enters s d e [v] := by
  intro n
  unfold entry
  simp only [if_pos hv]
  rfl

theorem bitLengths_le (hLt : ∀ k ∈ h.order, k < 2 ^ 3) : ∀ k ∈ h.bitLengths, k ≤ 7 := by
  intro k hk
  obtain ⟨v, -, rfl⟩ := List.mem_map.mp hk
  cases hGet : h.order[border.idxOf v]? with
  | none => exact Nat.zero_le _
  | some x => exact Nat.le_of_lt_succ (hLt x (List.mem_of_getElem? hGet))

/-- The table of the third code. -/
theorem bits_table (hValid : h.Valid) (stale : Nat) : ∃ tl bl,
    huftBuild stale h.bitLengths 19 none none 7 = ⟨0, some (some tl), bl⟩ ∧
      ReadsAtOnce tl bl h.bitLengths 19 none none := by
  have hLe := bitLengths_le hValid.order_lt
  have hLength : h.bitLengths.length = 19 := (List.length_map _).trans List.length_range
  obtain ⟨r, tl, bl, hBuild, -, hZero⟩ := huftBuild_some stale 19 7 none none
    (fun k hk => Nat.le_trans (hLe k hk) (by decide))
    (kraft_used (by rw [hValid.bits_full]; decide)) (Nat.le_of_eq hValid.bits_full)
    (Or.inl hValid.bits_full) fun v hv _ => enters_simple (hLength ▸ hv)
  obtain rfl := hZero hValid.bits_full
  exact ⟨tl, bl, hBuild, huftBuild_reads_at_once (by decide) hLe hBuild⟩

/-- The head has the table of the third code. -/
def HasBits (h : BlockHeader) (tl : HuftPtr) (bl : Nat) (head : Head) : Prop :=
  Counts h head ∧ head.tl = some tl ∧ head.bl = bl

theorem ahead_buildBitLengths (hValid : h.Valid) {tl : HuftPtr} {bl : Nat}
    (hBuild : huftBuild env.stale h.bitLengths 19 none none 7 = ⟨0, some (some tl), bl⟩) :
    Triple (Ahead b made K env.fuel 0 (h.order.flatMap (bitsOf 3) ++ str) 0 (Counts h))
      (buildBitLengths env 0) (fun _ => Ahead b made K env.fuel 0 str 0 (HasBits h tl bl)) E := by
  obtain ⟨-, hMost⟩ := hValid.order_le
  refine Triple.get_bind' fun s hs => ?_
  rw [hs.head.2.2]
  refine Triple.bind (Q := fun _ => Ahead b made K env.fuel 0 str 0 (Ordered h 19)) ?_ fun _ => ?_
  · refine ahead_fromFlag ?_
    rw [Nat.sub_zero, Nat.zero_max]
    refine Triple.bind ((ahead_bitLengths (i := 0) hValid.order_lt hMost (Nat.zero_add _)).conseq
      (fun _ hs => hs.mono (Nat.le_refl _) fun _ hCounts => ⟨hCounts, nofun⟩) (fun _ _ hs => hs)
      fun _ _ h => h) fun _ => ?_
    refine Triple.bind (ahead_clearBitLengths (Nat.le_refl _) (by omega)) fun _ =>
      ahead_modifyHead (fun _ => ⟨rfl, rfl⟩) fun _ hs => hs
  · refine Triple.get_bind' fun s hs => ?_
    rw [if_pos hs.flag_eq, ordered_bitLengths hs.head, hBuild]
    refine Triple.bind (ahead_modifyHead (I := fun head => Counts h head ∧ head.tl = some tl)
      (fun _ => ⟨rfl, rfl⟩)
      fun _ hs => ⟨hs.1, rfl⟩) fun _ => Triple.ite (fun hError => absurd rfl hError) fun _ => ?_
    exact ahead_modifyHead (fun _ => ⟨rfl, rfl⟩) fun _ hs => ⟨hs.1, hs.2, rfl⟩

end BitLengths

/-! ### The lengths of the codes -/

namespace Run

theorem lengths_pos (last : Nat) (r : Run) : 0 < (r.lengths last).length := by
  cases r <;> simp only [lengths, List.length_replicate, List.length_singleton] <;> omega

theorem expand_nil (last : Nat) {runs : List Run} (h : expand last runs = []) : runs = [] := by
  cases runs with
  | nil => rfl
  | cons r runs =>
    have hPos := lengths_pos last r
    rw [(List.append_eq_nil_iff.mp h).1] at hPos
    exact absurd hPos (Nat.lt_irrefl 0)

/-- Lengths are less than 16. -/
theorem expand_lt {last : Nat} {runs : List Run} (hLast : last < 16)
    (hValid : ∀ r ∈ runs, r.Valid) :
    ∀ k ∈ expand last runs, k < 16 := by
  induction runs generalizing last with
  | nil => nofun
  | cons r runs ih =>
    obtain ⟨hr, hRuns⟩ := List.forall_mem_cons.mp hValid
    intro k hk
    have hNext : r.next last < 16 := by
      cases r with
      | length k => exact hr
      | again x => exact hLast
      | zeros x => exact Nat.zero_lt_succ _
      | manyZeros x => exact Nat.zero_lt_succ _
    rcases List.mem_append.mp hk with hk | hk
    · cases r with
      | length k => exact List.mem_singleton.mp hk ▸ hr
      | again x => exact (List.mem_replicate.mp hk).2 ▸ hLast
      | zeros x => exact (List.mem_replicate.mp hk).2 ▸ Nat.zero_lt_succ _
      | manyZeros x => exact (List.mem_replicate.mp hk).2 ▸ Nat.zero_lt_succ _
    · exact ih hNext hRuns k hk

theorem value_lt {r : Run} (h : r.Valid) : r.value < 19 := by
  cases r with
  | length k =>
    have hk : k < 16 := h
    exact Nat.lt_trans hk (by decide)
  | again x => exact (by decide : 16 < 19)
  | zeros x => exact (by decide : 17 < 19)
  | manyZeros x => exact (by decide : 18 < 19)

end Run

/-- The lengths of the block are there up to index `i`, and the table of the third code. -/
def Lengthy (h : BlockHeader) (tl : HuftPtr) (i : Nat) (head : Head) : Prop :=
  Counts h head ∧ head.tl = some tl ∧ ∀ j < i, head.ll j = h.all[j]?.getD 0

section CodeLengths

variable {env : Env} {b : Buffers} {made : List (List (UInt8 × Nat))} {K : Kept} {str : List Bool}
  {h : BlockHeader} {tl : HuftPtr} {bl : Nat} {E : Exit → State → Prop}

theorem ahead_setLength {flag i x : Nat} (hx : h.all[i]? = some x) :
    Triple (Ahead b made K env.fuel 0 str flag (Lengthy h tl i)) (setLength i x)
      (fun _ => Ahead b made K env.fuel 0 str flag (Lengthy h tl (i + 1))) E := by
  refine ahead_modifyHead (fun _ => ⟨rfl, rfl⟩) fun head hs =>
    ⟨hs.1, hs.2.1, fun j hj => ?_⟩
  by_cases hSame : j = i
  · exact (if_pos hSame).trans (by rw [hSame, hx]; rfl)
  · exact (if_neg hSame).trans (hs.2.2 j (by omega))

theorem ahead_setLengths {flag i x m : Nat} (hx : ∀ j < m, h.all[i + j]? = some x) :
    Triple (Ahead b made K env.fuel 0 str flag (Lengthy h tl i)) (setLengths i x m)
      (fun _ => Ahead b made K env.fuel 0 str flag (Lengthy h tl (i + m))) E := by
  induction m generalizing i with
  | zero => exact Triple.pure fun _ hs => hs
  | succ m ih =>
    have hShift : i + (m + 1) = i + 1 + m := by omega
    rw [hShift]
    refine Triple.bind (ahead_setLength (hx 0 (Nat.succ_pos m))) fun _ => ih fun j hj => ?_
    rw [Nat.add_assoc, Nat.add_comm 1 j]
    exact hx (j + 1) (Nat.succ_lt_succ hj)

theorem ahead_repeatLength {k base n i x y : Nat} (hk : k < 25) (hy : y < 2 ^ k)
    (hRoom : i + (base + y) ≤ n) (hx : ∀ j < base + y, h.all[i + j]? = some x) :
    Triple (Ahead b made K env.fuel 0 (bitsOf k y ++ str) 8 (Lengthy h tl i))
      (repeatLength env n k base i x) (fun next s => next = i + (base + y) ∧
        Ahead b made K env.fuel 0 str 8 (Lengthy h tl (i + (base + y))) s) E := by
  have hLength : (bitsOf k y).length = k := bitsOf_length k y
  refine Triple.bind (ahead_needBits hk (by rw [List.length_append]; omega)) fun _ =>
    ahead_bits (Nat.le_refl k) ?_
  rw [List.take_left' hLength, ofBits_bitsOf, Nat.mod_eq_of_lt hy]
  refine Triple.bind (ahead_dumpBits (Nat.le_refl k)) fun _ => ?_
  rw [List.drop_left' hLength, Nat.sub_self]
  refine Triple.ite (fun hFar => absurd hRoom (Nat.not_le_of_gt hFar)) fun _ => ?_
  exact Triple.bind (ahead_setLengths hx) fun _ => Triple.pure fun _ hs => ⟨rfl, hs⟩

/-- The lengths that a code stands for. -/
theorem ahead_lengthRun {r : Run} {n i last : Nat} (hr : r.Valid)
    (hRoom : i + (r.lengths last).length ≤ n)
    (hAll : ∀ j < (r.lengths last).length, h.all[i + j]? = (r.lengths last)[j]?) :
    Triple (Ahead b made K env.fuel 0 (r.extra ++ str) 8 (Lengthy h tl i))
      (lengthRun env n i last r.value)
      (fun next s => next = (i + (r.lengths last).length, r.next last) ∧
        Ahead b made K env.fuel 0 str 8 (Lengthy h tl (i + (r.lengths last).length)) s) E := by
  have hRepeat : ∀ {m x : Nat}, (∀ j < m, h.all[i + j]? = (List.replicate m x)[j]?) →
      ∀ j < m, h.all[i + j]? = some x := fun h' j hj => by
    rw [h' j hj, List.getElem?_replicate, if_pos hj]
  cases r with
  | length k =>
    have hk : k < 16 := hr
    rw [lengthRun, Run.value, if_pos hk]
    exact Triple.bind (ahead_setLength (hAll 0 (Nat.succ_pos 0))) fun _ =>
      Triple.pure fun _ hs => ⟨rfl, hs⟩
  | again x =>
    simp only [Run.lengths, List.length_replicate] at hRoom hAll ⊢
    exact Triple.bind (ahead_repeatLength (by decide) hr hRoom (hRepeat hAll)) fun next =>
      Triple.pure fun _ hs => ⟨by rw [hs.1]; rfl, hs.2⟩
  | zeros x =>
    simp only [Run.lengths, List.length_replicate] at hRoom hAll ⊢
    exact Triple.bind (ahead_repeatLength (by decide) hr hRoom (hRepeat hAll)) fun next =>
      Triple.pure fun _ hs => ⟨by rw [hs.1]; rfl, hs.2⟩
  | manyZeros x =>
    simp only [Run.lengths, List.length_replicate] at hRoom hAll ⊢
    exact Triple.bind (ahead_repeatLength (by decide) hr hRoom (hRepeat hAll)) fun next =>
      Triple.pure fun _ hs => ⟨by rw [hs.1]; rfl, hs.2⟩

/-- A code of the third alphabet. -/
theorem ahead_lengthCode {i j v : Nat} (hReads : ReadsAtOnce tl bl h.bitLengths 19 none none)
    (hv : v < 19) (hSome : 0 < codeLength h.bitLengths v) (hRest : bmax ≤ str.length) :
    Triple (Ahead b made K env.fuel 0 (codeword h.bitLengths v ++ str) 0 (Lengthy h tl i))
      (lengthCode env bl j)
      (fun r s => r = v ∧ Ahead b made K env.fuel 0 str 7 (Lengthy h tl i) s) E := by
  obtain ⟨hbl, hRead⟩ := hReads
  have hWord : (codeword h.bitLengths v).length = codeLength h.bitLengths v := codeword_length ..
  refine ahead_fromFlag (Triple.bind (ahead_setFlag 7) fun _ => Triple.bind (ahead_needBits
    (Nat.lt_of_le_of_lt hbl (by decide)) (by rw [List.length_append]; omega)) fun _ =>
    Triple.get_bind' fun s hs => ?_)
  rw [hs.head.2.1]
  obtain ⟨hShort, hEntry⟩ := hRead v hSome str s.source hs.stream hRest hs.read
  have hGet : (tl.add (s.source.bits bl)).get = ⟨16, codeLength h.bitLengths v, v, 0⟩ := by
    have hSimple : entry 19 none none (codeLength h.bitLengths v) [v] =
        some ⟨16, codeLength h.bitLengths v, v, 0⟩ := by
      unfold entry
      simp only [if_pos hv, if_pos (show v < 256 by omega)]
    exact (Option.some.inj (hSimple.symm.trans hEntry)).symm
  have hBits : s.source.bits bl = ofBits ((codeword h.bitLengths v ++ str).take bl) := by
    rw [← hs.stream]
    exact bits_stream hs.read
  refine ahead_bits (Nat.le_refl bl) ?_
  rw [← hBits]
  simp only [hGet]
  refine Triple.bind (ahead_modifyHead (I := Lengthy h tl i) (fun _ => ⟨rfl, rfl⟩) fun _ hs =>
    hs) fun _ =>
    Triple.bind (ahead_dumpBits hShort) fun _ => Triple.bind
    (ahead_modifyHead (I := Lengthy h tl i) (fun _ => ⟨rfl, rfl⟩) fun _ hs => hs) fun _ =>
      Triple.pure fun t ht => ⟨rfl, ?_⟩
  rw [List.drop_left' hWord] at ht
  exact ht.mono (Nat.zero_le _) fun _ h => h

/-- The loop reads all lengths. -/
theorem ahead_codeLengths (hReads : ReadsAtOnce tl bl h.bitLengths 19 none none)
    (hRest : bmax ≤ str.length) {n fuel i last : Nat} (hn : n = h.all.length) {runs : List Run}
    (hRuns : ∀ r ∈ runs, r.Valid ∧ 0 < codeLength h.bitLengths r.value)
    (hDrop : Run.expand last runs = h.all.drop i) (hi : i ≤ n) (hFuel : n ≤ i + fuel) :
    Triple (Ahead b made K env.fuel 0 (runs.flatMap (Run.bits h.bitLengths) ++ str) 0
      (Lengthy h tl i))
      (codeLengths env n bl fuel i last)
      (fun _ => Ahead b made K env.fuel 0 str 0 (Lengthy h tl n)) E := by
  have hEnd : n ≤ i → runs = [] ∧ i = n := fun hLe => by
    refine ⟨Run.expand_nil last ?_, Nat.le_antisymm hi hLe⟩
    rw [hDrop]
    exact List.drop_eq_nil_of_le (hn ▸ hLe)
  induction fuel generalizing i last runs with
  | zero =>
    obtain ⟨rfl, rfl⟩ := hEnd hFuel
    exact Triple.pure fun _ hs => hs
  | succ fuel ih =>
    unfold codeLengths
    refine Triple.ite (fun hMore => ?_) fun hDone => ?_
    · cases runs with
      | nil =>
        have hNone := congrArg List.length hDrop
        rw [List.length_drop] at hNone
        exact absurd (Nat.sub_pos_of_lt (hn ▸ hMore)) (by rw [← hNone]; exact Nat.lt_irrefl 0)
      | cons r runs =>
        obtain ⟨⟨hr, hSome⟩, hOthers⟩ := List.forall_mem_cons.mp hRuns
        have hSplit : h.all.drop i = r.lengths last ++ Run.expand (r.next last) runs := hDrop.symm
        have hRoom : i + (r.lengths last).length ≤ n := by
          have hLength := congrArg List.length hSplit
          rw [List.length_drop, List.length_append] at hLength
          omega
        have hAll : ∀ j < (r.lengths last).length, h.all[i + j]? = (r.lengths last)[j]? :=
          fun j hj => by
          rw [← List.getElem?_drop, hSplit, List.getElem?_append_left hj]
        have hPos := Run.lengths_pos last r
        rw [List.flatMap_cons, Run.bits, List.append_assoc, List.append_assoc]
        refine Triple.get_bind' fun s _ =>
          Triple.bind_eq (ahead_lengthCode hReads (Run.value_lt hr) hSome
          (by rw [List.length_append, List.length_append]; omega)) ?_
        refine Triple.bind (ahead_setFlag 8) fun _ =>
          Triple.bind_eq (ahead_lengthRun hr hRoom hAll) ?_
        refine Triple.bind (ahead_setFlag 0) fun _ => Triple.bind (ahead_modifyHead
          (I := Lengthy h tl (i + (r.lengths last).length)) (fun _ => ⟨rfl, rfl⟩) fun _ hs =>
            hs) fun _ => ?_
        have hNext : Run.expand (r.next last) runs = h.all.drop (i + (r.lengths last).length) := by
          rw [← List.drop_drop, hSplit, List.drop_left]
        refine ih hOthers hNext hRoom (by omega) fun hLe => ?_
        refine ⟨Run.expand_nil (r.next last) ?_, Nat.le_antisymm hRoom hLe⟩
        rw [hNext]
        exact List.drop_eq_nil_of_le (hn ▸ hLe)
    · obtain ⟨rfl, rfl⟩ := hEnd (Nat.le_of_not_lt hDone)
      exact Triple.pure fun _ hs => hs

end CodeLengths

/-! ### The block -/

/-- The head has the tables of the block. -/
def HasCodes (tl td : HuftPtr) (bl bd : Nat) (head : Head) : Prop :=
  head.tl = some tl ∧ head.td = some td ∧ head.bl = bl ∧ head.bd = bd

section Block

variable {env : Env} {b : Buffers} {made : List (List (UInt8 × Nat))} {K : Kept}
  {str rest : List Bool}
  {h : BlockHeader} {symbols : List Symbol}

theorem all_lt (hValid : h.Valid) : ∀ k ∈ h.all, k < 16 :=
  Run.expand_lt (by decide) fun r hr => (hValid.runs_valid r hr).1

theorem literal_length (hValid : h.Valid) : h.literal.length = h.lits := by
  have := hValid.total
  rw [BlockHeader.literal, List.length_take]
  omega

theorem distance_length (hValid : h.Valid) : h.distance.length = h.dists := by
  have := hValid.total
  rw [BlockHeader.distance, List.length_drop]
  omega

/-- The unused pattern beside a single code of one bit is no error. -/
theorem huftBuild_single (stale : Nat) :
    (huftBuild stale [1] 0 (some cpdist) (some cpdext) dbits).code = 0 := by
  have hSame : huftBuild stale [1] 0 (some cpdist) (some cpdext) dbits =
      huftBuild 0 [1] 0 (some cpdist) (some cpdext) dbits := by
    unfold huftBuild
    rw [show values [1] stale = values [1] 0 from rfl]
  rw [hSame]
  decide +kernel

/-- The tables of the distance codes. -/
theorem distance_tables (hValid : h.Valid) (stale : Nat) : ∃ td bd,
    huftBuild stale h.distance 0 (some cpdist) (some cpdext) dbits = ⟨0, some (some td), bd⟩ ∧
      Reads td bd h.distance 0 (some cpdist) (some cpdext) := by
  have hDists : ∀ k ∈ h.distance, k ≤ bmax :=
    fun k hk => Nat.le_of_lt (all_lt hValid k (List.mem_of_mem_drop hk))
  have hLength := distance_length hValid
  have hLe := hValid.dists_le
  have hEnters : ∀ v < h.distance.length, 0 < codeLength h.distance v →
      Enters 0 (some cpdist) (some cpdext) [v] := fun v hv _ => enters_of_le (by omega)
  rcases hValid.distance_full with hFull | hSingle
  · obtain ⟨r, td, bd, hBuild, -, hZero⟩ := huftBuild_some stale 0 dbits (some cpdist)
      (some cpdext) hDists (kraft_used (by rw [hFull]; decide)) (Nat.le_of_eq hFull)
      (Or.inl hFull) hEnters
    obtain rfl := hZero hFull
    refine ⟨td, bd, hBuild, huftBuild_reads hDists hBuild (Or.inr ⟨rfl, ?_⟩)⟩
    unfold dbits
    omega
  · rw [hSingle] at hDists hEnters ⊢
    obtain ⟨r, td, bd, hBuild, -, -⟩ := huftBuild_some stale 0 dbits (some cpdist)
      (some cpdext) hDists ⟨1, List.mem_singleton_self 1, Nat.one_ne_zero⟩ (by decide)
      (Or.inr (by decide)) hEnters
    obtain rfl : r = 0 := (congrArg Built.code hBuild).symm.trans (huftBuild_single stale)
    exact ⟨td, bd, hBuild, huftBuild_reads hDists hBuild (Or.inl (by decide))⟩

/-- The tables of the block. -/
theorem dynamic_tables (hValid : h.Valid) (stale : Nat) : ∃ tl bl td bd,
    huftBuild stale h.literal 257 (some cplens) (some cplext) lbits =
      ⟨0, some (some tl), bl⟩ ∧
    huftBuild stale h.distance 0 (some cpdist) (some cpdext) dbits = ⟨0, some (some td), bd⟩ ∧
    Reads tl bl h.literal 257 (some cplens) (some cplext) ∧
    Reads td bd h.distance 0 (some cpdist) (some cpdext) := by
  have hAll := all_lt hValid
  have hLits : ∀ k ∈ h.literal, k < 16 := fun k hk => hAll k (List.mem_of_mem_take hk)
  have hLitsLength := literal_length hValid
  have hLitsLe := hValid.lits_le
  obtain ⟨r, tl, bl, hBuild, -, hZero⟩ := huftBuild_some stale 257 lbits (some cplens)
    (some cplext) (fun k hk => Nat.le_of_lt (hLits k hk))
    (kraft_used (by rw [hValid.literal_full]; decide)) (Nat.le_of_eq hValid.literal_full)
    (Or.inl hValid.literal_full) fun v hv _ => enters_of_le (by omega)
  obtain rfl := hZero hValid.literal_full
  obtain ⟨td, bd, hBuild', hReads⟩ := distance_tables hValid stale
  refine ⟨tl, bl, td, bd, hBuild, hBuild',
    huftBuild_reads (fun k hk => Nat.le_of_lt (hLits k hk)) hBuild (Or.inl fun k hk => ?_),
    hReads⟩
  have := hLits k hk
  unfold lbits
  omega

/-- The lengths in the head are those of the block. -/
theorem lengthy_literal (hValid : h.Valid) {head : Head}
    (hAll : ∀ j < h.lits + h.dists, head.ll j = h.all[j]?.getD 0) :
    (List.range h.lits).map head.ll = h.literal := by
  have hTotal := hValid.total
  refine List.ext_getElem? fun j => ?_
  rw [BlockHeader.literal, List.getElem?_take, List.getElem?_map]
  by_cases hj : j < h.lits
  · rw [List.getElem?_range hj, if_pos hj, Option.map_some, hAll j (by omega),
      List.getElem?_eq_getElem (by omega)]
    rfl
  · rw [List.getElem?_eq_none (by rw [List.length_range]; omega), if_neg hj]
    rfl

theorem lengthy_distance (hValid : h.Valid) {head : Head}
    (hAll : ∀ j < h.lits + h.dists, head.ll j = h.all[j]?.getD 0) :
    (List.range' h.lits h.dists).map head.ll = h.distance := by
  have hTotal := hValid.total
  refine List.ext_getElem? fun j => ?_
  rw [BlockHeader.distance, List.getElem?_drop, List.getElem?_map]
  by_cases hj : j < h.dists
  · rw [List.getElem?_range' hj, Nat.one_mul, Option.map_some, hAll _ (by omega),
      List.getElem?_eq_getElem (by omega)]
    rfl
  · rw [List.getElem?_eq_none (by rw [List.length_range']; omega),
      List.getElem?_eq_none (by omega)]
    rfl

theorem ahead_buildTables (hValid : h.Valid) {t tl td : HuftPtr} {bl bd : Nat}
    {E : Exit → State → Prop}
    (hBuild : huftBuild env.stale h.literal 257 (some cplens) (some cplext) lbits =
      ⟨0, some (some tl), bl⟩)
    (hBuild' : huftBuild env.stale h.distance 0 (some cpdist) (some cpdext) dbits =
      ⟨0, some (some td), bd⟩) :
    Triple (Ahead b made K env.fuel 0 str 0 (Lengthy h t (h.lits + h.dists))) (buildTables env)
      (fun _ => Ahead b made K env.fuel 0 str 0 (HasCodes tl td bl bd)) E := by
  let Same := fun head : Head => Counts h head ∧ ∀ j < h.lits + h.dists,
    head.ll j = h.all[j]?.getD 0
  refine Triple.bind (ahead_modifyHead (I := Same) (fun _ => ⟨rfl, rfl⟩) fun _ hs =>
    ⟨hs.1, hs.2.2⟩) fun _ => ?_
  refine Triple.bind (Q := fun _ => Ahead b made K env.fuel 0 str 0 Same) (Triple.modify fun _ hs =>
    hs.congr ⟨rfl, rfl, rfl, rfl, rfl⟩ hs.tidy hs.stream
      (Nat.le_refl _) hs.read hs.flag_eq rfl hs.head)
    fun _ => Triple.get_bind' fun s hs => ?_
  have hLits : (List.range s.head.nl).map s.head.ll = h.literal := by
    rw [hs.head.1.1]
    exact lengthy_literal hValid hs.head.2
  have hDists : (List.range' s.head.nl s.head.nd).map s.head.ll = h.distance := by
    rw [hs.head.1.1, hs.head.1.2.1]
    exact lengthy_distance hValid hs.head.2
  simp only [hLits, hDists, hBuild, hBuild']
  refine Triple.bind (ahead_modifyHead (I := fun head => head.tl = some tl)
    (fun _ => ⟨rfl, rfl⟩) fun _ _ => rfl) fun _ =>
    Triple.ite (fun hError => absurd rfl hError) fun _ => ?_
  refine Triple.bind (ahead_modifyHead (I := fun head => head.tl = some tl ∧ head.td = some td)
    (fun _ => ⟨rfl, rfl⟩)
    fun _ hs => ⟨hs, rfl⟩) fun _ => Triple.ite (fun hError => absurd rfl hError) fun _ => ?_
  exact ahead_modifyHead (fun _ => ⟨rfl, rfl⟩) fun _ hs => ⟨hs.1, hs.2, rfl, rfl⟩

/-- The numbers of lengths. -/
theorem ahead_counts (hValid : h.Valid) {E : Exit → State → Prop} {α : Type} {x : Code α}
    {Q : α → State → Prop} (hx : Triple (Ahead b made K env.fuel 0 str 0 (Counts h)) x Q E) :
    Triple (Ahead b made K env.fuel 0 (bitsOf 5 (h.lits - 257) ++ (bitsOf 5 (h.dists - 1) ++
        (bitsOf 4 (h.order.length - 4) ++ str))) 0 (fun _ => True))
      (do
        readField env 3 5 fun x h => { h with nl := 257 + x }
        readField env 4 5 fun x h => { h with nd := 1 + x }
        readField env 5 4 fun x h => { h with nb := 4 + x }
        x) Q E := by
  obtain ⟨hLow, hHigh⟩ := hValid.lits_le
  obtain ⟨hLow', hHigh'⟩ := hValid.dists_le
  obtain ⟨hLeast, hMost⟩ := hValid.order_le
  refine Triple.bind (ahead_readField (I := fun head => head.nl = h.lits) (by decide) (by omega)
    (fun _ => ⟨rfl, rfl⟩) fun _ _ => Nat.add_sub_cancel' hLow) fun _ => ?_
  refine Triple.bind (ahead_readField (I := fun head => head.nl = h.lits ∧ head.nd = h.dists)
    (by decide) (by omega) (fun _ => ⟨rfl, rfl⟩) fun _ hs =>
      ⟨hs, Nat.add_sub_cancel' hLow'⟩) fun _ => ?_
  exact Triple.bind (ahead_readField (I := Counts h) (by decide) (by omega)
    (fun _ => ⟨rfl, rfl⟩)
    fun _ hs => ⟨hs.1, hs.2, Nat.add_sub_cancel' hLeast⟩) fun _ => hx

/-- A block with its own codes: the tokens of its symbols are stored and matched. -/
theorem stored_inflateDynamic (hValid : h.Valid)
    (hSymbols : ∀ s ∈ symbols, s.Valid ∧ s.Coded h.literal h.distance)
    (hRest : bmax ≤ rest.length)
    (hFuel : bmax + (h.bits ++ (blockBits h.literal h.distance symbols ++ rest)).length < env.fuel)
    (hZero : K.flag = 0) (hLoop : b.loop = 0 ∧ b.loopFlag = 0) :
    Stored env K b (Coming K (h.bits ++ (blockBits h.literal h.distance symbols ++ rest)))
      (inflateDynamic env) (b.block (symbols.map Symbol.token)) (Past K rest) := by
  obtain ⟨t, bl₀, hBits, hReads⟩ := bits_table hValid env.stale
  obtain ⟨tl, bl, td, bd, hBuild, hBuild', hL, hD⟩ := dynamic_tables hValid env.stale
  have hBlock : bmax + (blockBits h.literal h.distance symbols ++ rest).length < env.fuel := by
    rw [List.length_append] at hFuel
    omega
  refine Stored.call fun made => Triple.conseq (P := Ahead b made K env.fuel 0
    (h.bits ++ (blockBits h.literal h.distance symbols ++ rest)) 0 fun _ => True) ?_
      (fun s hs => ?_)
    (fun _ _ hs => hs) fun _ _ hs => hs
  swap
  · exact hs.2.ahead hs.1 (by omega)
  refine Triple.get_bind' fun s₀ hs₀ => ?_
  rw [if_pos hs₀.flag_eq, BlockHeader.bits]
  simp only [List.append_assoc]
  refine ahead_counts hValid (Triple.get_bind' fun s hs => ?_)
  obtain ⟨hNl, hNd, -⟩ := hs.head
  refine Triple.ite (fun hFar => ?_) fun _ => ?_
  · have := hValid.lits_le
    have := hValid.dists_le
    omega
  refine Triple.bind (ahead_buildBitLengths hValid hBits) fun _ => Triple.get_bind' fun s hs => ?_
  obtain ⟨⟨hNl, hNd, -⟩, -, hBl⟩ := hs.head
  have hTotal : s.head.nl + s.head.nd = h.all.length := by rw [hNl, hNd, hValid.total]
  have hMore : bmax ≤ (blockBits h.literal h.distance symbols ++ rest).length := by
    rw [List.length_append]
    omega
  simp only [hBl]
  refine Triple.bind (Q := fun _ => Ahead b made K env.fuel 0
    (blockBits h.literal h.distance symbols ++ rest) 0 (Lengthy h t (s.head.nl + s.head.nd)))
    (Triple.ite (fun _ => ?_) fun hNot => absurd (Or.inl hs.flag_eq) hNot) fun _ => ?_
  · exact (ahead_codeLengths hReads hMore hTotal hValid.runs_valid rfl (Nat.zero_le _)
      (Nat.le_of_eq (Nat.zero_add _).symm)).conseq
        (fun _ ht => ht.mono (Nat.le_refl _) fun _ hHas =>
      ⟨hHas.1, hHas.2.1, fun j hj => absurd hj (Nat.not_lt_zero j)⟩)
        (fun _ _ ht => ht) fun _ _ h => h
  refine Triple.get_bind' fun s' hs' => Triple.bind (Q := fun _ => Ahead b made K env.fuel 0
    (blockBits h.literal h.distance symbols ++ rest) 0 (HasCodes tl td bl bd))
    (Triple.ite (fun _ => ?_) fun hNot => absurd (hs'.flag_eq ▸ Nat.zero_lt_succ 8) hNot)
      fun _ => ?_
  · rw [hNl, hNd]
    exact ahead_buildTables hValid hBuild hBuild'
  refine Triple.get_bind' fun s'' hs'' => ?_
  obtain ⟨hTl, hTd, hBl', hBd⟩ := hs''.head
  simp only [hTl, hTd, hBl', hBd]
  exact (stored_symbols hL hD hValid.end_coded hSymbols hRest hBlock hZero hLoop made).conseq
    (fun u hu => ⟨hu.holding, hu.coming⟩) (fun _ _ hu => hu) fun _ _ hu => hu

end Block

end Shutter.Gunzip
