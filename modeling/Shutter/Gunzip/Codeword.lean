import Shutter.Gunzip.Decode
import Shutter.Gunzip.Lengths

/-! The bits of a source, and what the inflater reads of them: a code of the tables that
`huft_build` makes, and the extra bits behind it. -/

namespace Shutter.Gunzip

open Shutter.Library

/-! ### Bits -/

/-- The bits of a byte, the lowest first. -/
def byteBits (c : UInt8) : List Bool := bitsOf 8 c.toNat

/-- The bits that come next. -/
def Source.stream (src : Source) : List Bool := bitsOf src.bk src.bb ++ src.input.flatMap byteBits

/-- The bit buffer has no bits above those that are counted, which are few. -/
structure Source.Tidy (src : Source) : Prop where
  lt : src.bb < 2 ^ src.bk
  few : src.bk < 32

section Bits

variable {src src' : Source} {n : Nat}

theorem byteBits_length (input : List UInt8) : (input.flatMap byteBits).length =
    8 * input.length := by
  induction input with
  | nil => rfl
  | cons c input ih =>
    rw [List.flatMap_cons, List.length_append, ih, byteBits, bitsOf_length, List.length_cons]
    omega

theorem stream_length (src : Source) : src.stream.length = src.bk + 8 * src.input.length := by
  rw [Source.stream, List.length_append, bitsOf_length, byteBits_length]

/-- A byte above the bits of the buffer. -/
theorem lor_shiftLeft {bb bk : Nat} (h : bb < 2 ^ bk) (c : Nat) :
    bb ||| (c <<< bk) = bb + 2 ^ bk * c := by
  rw [Nat.or_comm, ← Nat.shiftLeft_add_eq_or_of_lt h, Nat.shiftLeft_eq,
    Nat.mul_comm, Nat.add_comm]

theorem bitsOf_add {bb bk : Nat} (h : bb < 2 ^ bk) (n c : Nat) :
    bitsOf (bk + n) (bb + 2 ^ bk * c) = bitsOf bk bb ++ bitsOf n c := by
  rw [bitsOf_append, Nat.add_mul_div_left _ _ (Nat.two_pow_pos bk),
    Nat.div_eq_of_lt h, Nat.zero_add,
    ← bitsOf_mod bk (bb + _), Nat.add_mul_mod_self_left, bitsOf_mod]

/-- `NEEDBITS` gets bits that are there, and leaves them in the stream. -/
theorem fillBits_stream {bb bk : Nat} {input : List UInt8} (hTidy : bb < 2 ^ bk) (hn : n < 25)
    (hFew : bk < 32) (hEnough : n ≤ (Source.mk bb bk input).stream.length) :
    ∃ src', fillBits n bb bk input = some src' ∧ src'.stream =
      (Source.mk bb bk input).stream ∧
      n ≤ src'.bk ∧ src'.Tidy := by
  induction input generalizing bb bk with
  | nil =>
    rw [stream_length] at hEnough
    exact ⟨_, if_pos hEnough, rfl, hEnough, hTidy, hFew⟩
  | cons c input ih =>
    unfold fillBits
    by_cases hDone : n ≤ bk
    · exact ⟨_, if_pos hDone, rfl, hDone, hTidy, hFew⟩
    · have hByte : c.toNat < 2 ^ 8 := c.toNat_lt
      have hSame : (Source.mk (bb ||| (c.toNat <<< bk)) (bk + 8) input).stream =
          (Source.mk bb bk (c :: input)).stream := by
        rw [Source.stream, Source.stream, lor_shiftLeft hTidy, bitsOf_add hTidy, List.flatMap_cons,
          List.append_assoc]
        rfl
      have hNext : bb ||| (c.toNat <<< bk) < 2 ^ (bk + 8) := by
        rw [lor_shiftLeft hTidy, Nat.pow_add]
        have := Nat.mul_le_mul_left (2 ^ bk) (Nat.succ_le_of_lt hByte)
        rw [Nat.mul_succ] at this
        omega
      rw [if_neg hDone]
      obtain ⟨src', hFill, hStream, hBits, hTidy'⟩ :=
        ih hNext (by omega) (by rw [hSame]; exact hEnough)
      exact ⟨src', hFill, hStream.trans hSame, hBits, hTidy'⟩

theorem fill_stream (hTidy : src.Tidy) (hn : n < 25) (hEnough : n ≤ src.stream.length) :
    ∃ src', src.fill n = some src' ∧ src'.stream = src.stream ∧ n ≤ src'.bk ∧ src'.Tidy :=
  fillBits_stream hTidy.lt hn hTidy.few hEnough

/-- `DUMPBITS` takes bits that are in the buffer. -/
theorem dump_stream (hTidy : src.Tidy) (hn : n ≤ src.bk) :
    (src.dump n).stream = src.stream.drop n ∧ (src.dump n).Tidy ∧
    (src.dump n).bk = src.bk - n := by
  have hFew := hTidy.few
  have hbk : (src.bk + 2 ^ 32 - n) % 2 ^ 32 = src.bk - n := by
    rw [show src.bk + 2 ^ 32 - n = src.bk - n + 2 ^ 32 by omega, Nat.add_mod_right,
      Nat.mod_eq_of_lt (by omega)]
  have hSplit : bitsOf src.bk src.bb = bitsOf n src.bb ++ bitsOf (src.bk - n) (src.bb / 2 ^ n) := by
    rw [← bitsOf_append, Nat.add_sub_cancel' hn]
  refine ⟨?_, ⟨?_, ?_⟩, hbk⟩
  · rw [Source.stream, Source.stream, hSplit, List.append_assoc,
      List.drop_left' (bitsOf_length n _)]
    simp only [Source.dump, hbk, Nat.shiftRight_eq_div_pow]
  · simp only [Source.dump, hbk, Nat.shiftRight_eq_div_pow]
    rw [Nat.div_lt_iff_lt_mul (Nat.two_pow_pos n), ← Nat.pow_add, Nat.sub_add_cancel hn]
    exact hTidy.lt
  · simp only [Source.dump, hbk]
    omega

/-- The bits that are masked are the next ones. -/
theorem bits_stream (hn : n ≤ src.bk) : src.bits n = ofBits (src.stream.take n) := by
  have hSplit : bitsOf src.bk src.bb = bitsOf n src.bb ++ bitsOf (src.bk - n) (src.bb / 2 ^ n) := by
    rw [← bitsOf_append, Nat.add_sub_cancel' hn]
  rw [Source.stream, hSplit, List.append_assoc, List.take_left' (bitsOf_length n _), ofBits_bitsOf]
  rfl

end Bits

/-! ### A code -/

section Walk

variable {J : Job} {place : Nat → Place} {tables : Tables} {str : List Bool} {P : Nat}

/-- The next bits are the index of a table, for the position that the first bits make. -/
theorem index_stream {p : Place} (hFits : J.l * p.level + p.bits ≤ J.g)
    (hLength : J.g ≤ str.length) (hBits : reverseBits J.g P = ofBits (str.take J.g)) :
    ofBits ((str.drop (J.l * p.level)).take p.bits) = J.index p P := by
  have hDrop : ofBits (str.drop (J.l * p.level)) = ofBits str / 2 ^ (J.l * p.level) :=
    ofBits_drop (by omega)
  have hSplit : 2 ^ J.g = 2 ^ (J.l * p.level) * 2 ^ (J.g - J.l * p.level) := by
    rw [← Nat.pow_add, Nat.add_sub_cancel' (by omega)]
  rw [ofBits_take (by rw [List.length_drop]; omega), hDrop, Job.index, hBits,
    ofBits_take hLength, hSplit,
    Nat.mod_mul_right_div_self, Nat.mod_mod_of_dvd _ (pow_dvd_pow 2 (by omega))]

/-- The entry that the tables lead to is that of the code. -/
theorem walk_filled (hPos : 0 < J.l) (hMax : J.g ≤ bmax) (hF : J.Filled place (2 ^ J.g) tables)
    (hP : P < 2 ^ J.g) (hLength : J.g ≤ str.length)
    (hBits : reverseBits J.g P = ofBits (str.take J.g)) {k : Nat} {v : List Nat}
    (hCode : J.codeAt P = (k, v)) (hValid : ∀ b r, entry J.s J.d J.e b v = some r → r.e ≤ 16)
    {fuel q : Nat} {src : Source} (hq : q < tables.length) (hHas : J.Has (place q) P)
    (hTidy : src.Tidy) (hStream : src.stream = str.drop (J.l * (place q).level))
    (hIndex : (place q).bits ≤ src.bk) (hFuel : J.g < J.l * (place q).level + fuel) :
    ∃ t src' b, walk fuel ⟨tables, q, J.index (place q) P⟩ src = some (t, src') ∧
      entry J.s J.d J.e b v = some t.get ∧ b ≤ k ∧ b ≤ src'.bk ∧
        src'.stream = str.drop (k - b) ∧
      src'.Tidy := by
  have hFits := hF.fits q hq
  induction fuel generalizing q src with
  | zero =>
    have := hFits.below
    omega
  | succ fuel ih =>
    unfold walk
    cases hF.leads q hq P hHas hP with
    | value hCode' hLow hHigh hEntry =>
      rw [hCode] at hCode'
      obtain ⟨rfl, rfl⟩ := Prod.mk.inj hCode'
      rw [if_pos (hValid _ _ hEntry)]
      refine ⟨_, _, _, rfl, hEntry, Nat.sub_le _ _, by omega, ?_, hTidy⟩
      rw [hStream, Nat.sub_sub_self (Nat.le_of_lt hLow)]
    | @table q' hq' hLevel hHas' hAll hr =>
      have hFits' := hF.fits q' hq'
      have hSome := hFits'.pos
      have hMost := hFits'.le
      have hIn := hFits'.fits
      have hWide : J.l * (place q').level = J.l * (place q).level +
        J.l := by rw [hLevel, Nat.mul_succ]
      have hNotLong : (J.link (place q') q').e = 16 + (place q').bits := rfl
      obtain ⟨hDrop, hTidy₁, -⟩ := dump_stream hTidy (n := J.l) (hAll ▸ hIndex)
      rw [hStream, List.drop_drop, ← hWide] at hDrop
      obtain ⟨src₂, hFill, hSame, hRead, hTidy₂⟩ :=
        fill_stream hTidy₁ (n := (place q').bits)
        (by unfold bmax at hMax; omega) (by rw [hDrop, List.length_drop]; omega)
      have hNext := index_stream hIn hLength hBits
      rw [← hDrop, ← hSame, ← bits_stream hRead] at hNext
      rw [hr, if_neg (by rw [hNotLong]; omega),
        if_neg (by rw [hNotLong]; unfold bmax at hMax; omega)]
      have hStep : ((src.dump (J.link (place q') q').b).fill ((J.link (place q') q').e - 16)) =
          some src₂ := by
        rw [hNotLong, Nat.add_sub_cancel_left]
        exact hFill
      rw [hStep, Option.bind_some, hNotLong, Nat.add_sub_cancel_left, hNext]
      have hPtr : (HuftPtr.next ⟨tables, q, J.index (place q) P⟩).add (J.index (place q') P) =
          ⟨tables, q', J.index (place q') P⟩ := by
        rw [HuftPtr.next, hr, HuftPtr.add]
        simp only [Job.link, Nat.zero_add]
      rw [hPtr]
      exact ih hq' hHas' hTidy₂ (hSame.trans hDrop) hRead (by omega) hFits'

theorem entry_bits {s n : Nat} {d e : Option (List Nat)} {v : List Nat} {r : Huft}
    (h : entry s d e n v = some r) : r.b = n := by
  unfold entry at h
  split at h
  · obtain rfl := Option.some.inj h
    rfl
  · split at h
    · obtain rfl := Option.some.inj h
      rfl
    · split at h
      · cases h
      · split at h
        · cases h
        · obtain rfl := Option.some.inj h
          rfl

/-- The position of the next bits is one of the code that they begin with. -/
theorem position_of_word {b : List Nat} (hJ : J.Decodes b place tables) {v : Nat}
    (hv : v < b.length) (hSome : 0 < codeLength b v) {rest : List Bool}
    (hRest : bmax ≤ rest.length) :
    ∃ P others, P < 2 ^ J.g ∧ J.codeAt P = (codeLength b v, v :: others) ∧
      reverseBits J.g P = ofBits ((codeword b v ++ rest).take J.g) := by
  obtain ⟨hk, hSmall, others, hCode⟩ := hJ.value v hv hSome
  have hMax := hJ.max
  have hWord : (codeword b v).length = codeLength b v := codeword_length b v
  have hLength : J.g ≤ (codeword b v ++ rest).length := by
    rw [List.length_append]
    omega
  have hFirst : ofBits ((codeword b v ++ rest).take J.g) < 2 ^ J.g := by
    have hLt := ofBits_lt ((codeword b v ++ rest).take J.g)
    rwa [List.length_take_of_le hLength] at hLt
  have hBits := reverseBits_reverseBits hFirst
  refine ⟨_, others, reverseBits_lt _ _, hCode _ (reverseBits_inj ?_ hSmall ?_), hBits⟩
  · rw [Nat.div_lt_iff_lt_mul (Nat.two_pow_pos _), ← Nat.pow_add, Nat.add_sub_cancel' hk]
    exact reverseBits_lt _ _
  · have hTake : ((codeword b v ++ rest).take (codeLength b v)) = codeword b v :=
      List.take_left' hWord
    rw [← reverseBits_mod hk, hBits, ← ofBits_codeBits, ofBits_take hLength,
      Nat.mod_mod_of_dvd _ (pow_dvd_pow 2 hk), ← ofBits_take (Nat.le_trans hk hLength)]
    exact congrArg ofBits hTake

theorem root_has {P : Nat} (hF : J.Filled place (2 ^ J.g) tables) (hSome : 0 < tables.length)
    (hP : P < 2 ^ J.g) : J.Has (place 0) P := by
  rw [hF.root hSome]
  refine ⟨Nat.zero_le _, ?_⟩
  simpa [Job.stop] using hP

/-- The first look at the bits gives the index of the first table. -/
theorem root_index {P : Nat} {src : Source} (hF : J.Filled place (2 ^ J.g) tables)
    (hSome : 0 < tables.length) (hLe : J.l ≤ J.g) (hLength : J.g ≤ str.length)
    (hBits : reverseBits J.g P = ofBits (str.take J.g)) (hStream : src.stream = str)
    (hRead : J.l ≤ src.bk) : src.bits J.l = J.index (place 0) P := by
  have hRoot := hF.root hSome
  have hIndex := index_stream (p := place 0) (by rw [hRoot]; simpa using hLe) hLength hBits
  rw [hRoot] at hIndex
  simp only [Nat.mul_zero, List.drop_zero] at hIndex
  rw [bits_stream hRead, hStream, hIndex, hRoot]

/-- The tables read the code of a value. -/
theorem code_value {b : List Nat} {p : HuftPtr} (hJ : J.Decodes b place tables)
    (hp : p = ⟨tables, 0, 0⟩) {v : Nat} (hv : v < b.length) (hSome : 0 < codeLength b v)
    (hValid : ∀ n r, entry J.s J.d J.e n [v] = some r → r.e ≤ 16) {rest : List Bool}
    {src : Source} (hTidy : src.Tidy) (hStream : src.stream = codeword b v ++ rest)
    (hRest : bmax ≤ rest.length) {fuel : Nat} (hFuel : bmax < fuel) :
    ∃ t src' n, code fuel p J.l src = some (t, src') ∧ entry J.s J.d J.e n [v] = some t.get ∧
      src'.stream = rest ∧ src'.Tidy := by
  obtain ⟨P, others, hP, hCode, hBits⟩ := position_of_word hJ hv hSome hRest
  have hMax := hJ.max
  have hLe := hJ.le
  have hWord : (codeword b v).length = codeLength b v := codeword_length b v
  have hLength : J.g ≤ (codeword b v ++ rest).length := by
    rw [List.length_append]
    omega
  have hRoot := hJ.filled.root hJ.some_table
  obtain ⟨src₁, hFill, hSame, hRead, hTidy₁⟩ := fill_stream hTidy (n := J.l)
    (by unfold bmax at hMax; omega) (by rw [hStream]; omega)
  have hIndex := root_index hJ.filled hJ.some_table hLe hLength hBits (hSame.trans hStream) hRead
  obtain ⟨t, src₂, n, hWalk, hEntry, hn, hIn, hRest', hTidy₂⟩ :=
    walk_filled hJ.pos hMax hJ.filled hP
    hLength hBits hCode (fun n r hr => hValid n r hr) hJ.some_table
      (root_has hJ.filled hJ.some_table hP)
    hTidy₁ (by rw [hRoot]; simpa using hSame.trans hStream) (by rw [hRoot]; exact hRead)
    (show J.g < J.l * (place 0).level + fuel by omega)
  have hb : t.get.b = n := entry_bits hEntry
  obtain ⟨hDrop, hTidy₃, -⟩ := dump_stream hTidy₂ hIn
  refine ⟨t, src₂.dump n, n, ?_, hEntry, ?_, hTidy₃⟩
  · have hPtr : p.add (src₁.bits J.l) = ⟨tables, 0, J.index (place 0) P⟩ := by
      rw [hp, hIndex, HuftPtr.add]
      simp only [Nat.zero_add]
    rw [code, hFill, Option.bind_some, hPtr, hWalk, Option.map_some, hb]
  · rw [hDrop, hRest', List.drop_drop, Nat.sub_add_cancel hn, List.drop_left' hWord]

/-- When the first table is the only one, its entry for the next bits is that of the value. -/
theorem root_value {b : List Nat} {p : HuftPtr} (hJ : J.Decodes b place tables)
    (hp : p = ⟨tables, 0, 0⟩) (hOne : J.g ≤ J.l) {v : Nat} (hv : v < b.length)
    (hSome : 0 < codeLength b v) {rest : List Bool} {src : Source}
    (hStream : src.stream = codeword b v ++ rest) (hRest : bmax ≤ rest.length)
    (hRead : J.l ≤ src.bk) :
    codeLength b v ≤ J.l ∧
      entry J.s J.d J.e (codeLength b v) [v] = some (p.add (src.bits J.l)).get := by
  obtain ⟨P, others, hP, hCode, hBits⟩ := position_of_word hJ hv hSome hRest
  have hMax := hJ.max
  have hLength : J.g ≤ (codeword b v ++ rest).length := by
    rw [List.length_append]
    omega
  have hRoot := hJ.filled.root hJ.some_table
  have hIndex := root_index hJ.filled hJ.some_table hJ.le hLength hBits hStream hRead
  have hPtr : p.add (src.bits J.l) = ⟨tables, 0, J.index (place 0) P⟩ := by
    rw [hp, hIndex, HuftPtr.add]
    simp only [Nat.zero_add]
  rw [hPtr]
  refine ⟨Nat.le_trans (hJ.value v hv hSome).1 hOne, ?_⟩
  cases hJ.filled.leads 0 hJ.some_table P (root_has hJ.filled hJ.some_table hP) hP with
  | value hCode' _ _ hEntry =>
    rw [hCode] at hCode'
    obtain ⟨rfl, rfl⟩ := Prod.mk.inj hCode'
    rw [hRoot, Nat.mul_zero, Nat.sub_zero] at hEntry
    rw [hRoot]
    exact hEntry
  | table hq hLevel _ _ _ =>
    have hBelow := (hJ.filled.fits _ hq).below
    rw [hLevel, hRoot, Nat.mul_one] at hBelow
    omega

end Walk

/-- The tables read the code of each value that has a valid entry, and no bits behind it. -/
def Reads (p : HuftPtr) (l : Nat) (b : List Nat) (s : Nat) (d e : Option (List Nat)) : Prop :=
  ∀ v, 0 < codeLength b v → (∀ n r, entry s d e n [v] = some r → r.e ≤ 16) →
    ∀ (rest : List Bool) (src : Source), src.Tidy → src.stream = codeword b v ++ rest →
      bmax ≤ rest.length → ∀ fuel, bmax < fuel →
        ∃ t src' n, code fuel p l src = some (t, src') ∧ entry s d e n [v] = some t.get ∧
          src'.stream = rest ∧ src'.Tidy

/-- The tables of `huft_build` read the canonical codes of the lengths, which are at most twice as
long as an index, unless there are fewer values than a table has entries. -/
theorem huftBuild_reads {stale s m : Nat} {b : List Nat} {d e : Option (List Nat)} {r l : Nat}
    {p : HuftPtr} (hLengths : ∀ k ∈ b, k ≤ bmax)
    (h : huftBuild stale b s d e m = ⟨r, some (some p), l⟩)
    (hRoom : (∀ k ∈ b, k ≤ 2 * m) ∨ r = 0 ∧ b.length < 2 ^ m) : Reads p l b s d e := by
  obtain ⟨J, place, rfl, rfl, rfl, rfl, hJ, hp, -⟩ := huftBuild_decodes hLengths h hRoom
  intro v hSome hValid rest src hTidy hStream hRest fuel hFuel
  have hv : v < b.length := by
    by_contra hOut
    rw [codeLength, List.getElem?_eq_none (Nat.le_of_not_lt hOut)] at hSome
    exact absurd hSome (Nat.lt_irrefl 0)
  exact code_value hJ hp hv hSome hValid hTidy hStream hRest hFuel

/-- Lengths that are not too many have tables, which read their canonical codes. -/
theorem huftBuild_tables {stale s m : Nat} {b : List Nat} {d e : Option (List Nat)}
    (hLengths : ∀ k ∈ b, k ≤ bmax) (hUsed : ∃ k ∈ b, k ≠ 0)
    (hKraft : kraft bmax b ≤ 2 ^ bmax) (hAll : kraft bmax b = 2 ^ bmax ∨ 0 ∉ b)
    (hValues : ∀ v < b.length, 0 < codeLength b v → Enters s d e [v])
    (hRoom : (∀ k ∈ b, k ≤ 2 * m) ∨ kraft bmax b = 2 ^ bmax ∧ b.length < 2 ^ m) :
    ∃ r p l, huftBuild stale b s d e m = ⟨r, some (some p), l⟩ ∧ r ≤ 1 ∧
      (kraft bmax b = 2 ^ bmax → r = 0) ∧ Reads p l b s d e := by
  obtain ⟨r, p, l, hBuild, hCode, hZero⟩ :=
    huftBuild_some stale s m d e hLengths hUsed hKraft hAll hValues
  exact ⟨r, p, l, hBuild, hCode, hZero,
    huftBuild_reads hLengths hBuild (hRoom.imp_right fun h => ⟨hZero h.1, h.2⟩)⟩

/-- The lengths 1, 2 and 2, with tables of one bit. -/
theorem huftBuild_tables_three : ∃ r p l, huftBuild 0 [1, 2, 2] 3 none none 1 =
    ⟨r, some (some p), l⟩ ∧
    r ≤ 1 ∧ (kraft bmax [1, 2, 2] = 2 ^ bmax → r = 0) ∧
      Reads p l [1, 2, 2] 3 none none := by
  have hValues : ∀ v < [1, 2, 2].length, 0 < codeLength [1, 2, 2] v → Enters 3 none none [v] :=
    fun v hv _ n => by
      rw [entry, if_pos (show v < 3 from hv)]
      rfl
  exact huftBuild_tables (by decide) ⟨1, by decide, by decide⟩ (by decide)
    (Or.inl (by decide)) hValues
    (Or.inl (by decide))

/-- The first table has the entries of all values. -/
def ReadsAtOnce (p : HuftPtr) (l : Nat) (b : List Nat) (s : Nat) (d e : Option (List Nat)) : Prop :=
  l ≤ bmax ∧ ∀ v, 0 < codeLength b v → ∀ (rest : List Bool) (src : Source),
    src.stream = codeword b v ++ rest → bmax ≤ rest.length → l ≤ src.bk →
      codeLength b v ≤ l ∧ entry s d e (codeLength b v) [v] = some (p.add (src.bits l)).get

/-- With no code that is longer than an index, one look at the table is enough. -/
theorem huftBuild_reads_at_once {stale s m : Nat} {b : List Nat}
    {d e : Option (List Nat)} {r l : Nat} {p : HuftPtr} (hMax : m ≤ bmax)
    (hLengths : ∀ k ∈ b, k ≤ m) (h : huftBuild stale b s d e m = ⟨r, some (some p), l⟩) :
    ReadsAtOnce p l b s d e := by
  obtain ⟨J, place, rfl, rfl, rfl, rfl, hJ, hp, hOne⟩ := huftBuild_decodes
    (fun k hk => Nat.le_trans (hLengths k hk) hMax) h
    (Or.inl fun k hk => Nat.le_trans (hLengths k hk) (Nat.le_mul_of_pos_left m Nat.two_pos))
  have hLe := hJ.le
  have hMost := hJ.max
  refine ⟨Nat.le_trans hLe hMost, fun v hSome rest src hStream hRest hRead => ?_⟩
  have hv : v < b.length := by
    by_contra hOut
    rw [codeLength, List.getElem?_eq_none (Nat.le_of_not_lt hOut)] at hSome
    exact absurd hSome (Nat.lt_irrefl 0)
  exact root_value hJ hp (hOne hLengths) hv hSome hStream hRest hRead

end Shutter.Gunzip
