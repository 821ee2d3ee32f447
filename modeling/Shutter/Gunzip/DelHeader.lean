import Shutter.Gunzip.Numbers
import Shutter.Gunzip.ResponseHead

/-! `DelHeader` on a block that starts with the head of a response.  Behind the head, `chunk_size`
is not written without a length, a size line is cut at sixteen bytes or read behind the block, and a
first chunk of ten bytes is passed over. -/

namespace Shutter.Gunzip

open Shutter.Acsm (cstr cstr_block)
open Shutter.Stream (Segment)

/-! ### What it should find -/

/-- The length in the field `Content-Length`. -/
def ResponseHead.length (h : ResponseHead) : Option Nat :=
  (h.lines.find? fun line => lengthText ++ [58] <+: line).map fun line =>
    digits 10 ((line.drop 15).dropWhile fun c => c = 32 ∨ c = 9)

/-- The size line at the start of the body, if it is in the block. -/
def sizeLine (body : List UInt8) : List UInt8 := if 10 ∈ body then upTo 10 body else []

/-- The offset of the first byte of the body, or of the first chunk's data. -/
def ResponseHead.dataStart (h : ResponseHead) (body : List UInt8) : Nat :=
  h.bytes.length + if h.Has chunkedText then (sizeLine body).length else 0

/-- The size of the first chunk, or the length of the body, or 0. -/
def ResponseHead.chunk (h : ResponseHead) (body : List UInt8) : Nat :=
  if h.Has chunkedText then digits 16 (sizeLine body) else h.length.getD 0

/-- The size of a chunk in hexadecimal, and an extension, or none. -/
structure SizeLine where
  size : List UInt8
  ext : List UInt8
  nonempty : size ≠ []
  hex : ∀ c ∈ size, digit c < 16
  stops : EndsNumber ext
  proper : 0 ∉ ext ∧ 10 ∉ ext

/-- The bytes of the line, with its end. -/
def SizeLine.bytes (s : SizeLine) : List UInt8 := s.size ++ (s.ext ++ crlf)

/-- `DelHeader` analyses the block, whatever nothing has written. -/
def Analysed (h : ResponseHead) (body : List UInt8) : Prop :=
  ∀ (m : Memory) (stale : Nat),
    let d := delHeader m stale (h.bytes ++ body)
    d.textFlag = true ∧ (d.gzipFlag = true ↔ h.Has gzipText) ∧ d.p = h.dataStart body ∧
      d.headSize = some (h.dataStart body) ∧ d.chunk = some (h.chunk body : Int)

/-! ### When it does -/

/-- The last header line that contains `Content-Length` has the length of the body at its
seventeenth byte. -/
def ResponseHead.LengthInPlace (h : ResponseHead) : Prop :=
  ∃ line, h.lengthLine = some line ∧ (∃ c ∈ line.drop 16, ¬Blank c) ∧
    strtol 10 (line.drop 16) = (h.length.getD 0 : Int)

/-- The size line is short and its size fits, and is not 10; or it is 10 twice, at the start and at
the byte where the size line behind ten bytes is looked for. -/
def SizeInPlace (line : List UInt8) : Prop :=
  (line.length ≤ 16 ∧ digits 16 line ≠ 10 ∧ digits 16 line < 2 ^ 31) ∨
    (digits 16 line = 10 ∧ (∃ c ∈ line.take 15, 16 ≤ digit c) ∧ 26 < line.length ∧
      line.length ≤ 42 ∧ strtol 16 (line.drop 26) = 10)

/-- No line is taken for another type, and the first chunk or the length can be read. -/
def ResponseHead.Readable (h : ResponseHead) (body : List UInt8) : Prop :=
  h.OneType ∧
    if h.Has chunkedText then body = [] ∨ (10 ∈ body ∧ SizeInPlace (sizeLine body))
    else (¬h.Has lengthText ∧ body = []) ∨ h.LengthInPlace

/-! ### The length -/

theorem Memory.exists_heap (t : List UInt8) : ∃ m : Memory, m.heap = t :=
    ⟨⟨fun _ => [], [], t⟩, rfl⟩

theorem blank_crlf : ∀ c ∈ crlf, Blank c := by simp [crlf, Blank]

theorem lineLength_iff (line : List UInt8) (v : Int) :
    (∀ m, lineLength m line = v) ↔
      (∃ c ∈ line.drop 16, ¬Blank c) ∧ strtol 10 (line.drop 16) = v := by
  by_cases hText : ∃ c ∈ line.drop 16, ¬Blank c
  · have hLong : 16 - line.length = 0 := by
      obtain ⟨c, hc, -⟩ := hText
      have := List.length_pos_of_mem hc
      rw [List.length_drop] at this
      omega
    have hRead : ∀ m, lineLength m line = strtol 10 (line.drop 16) := by
      intro m
      rw [lineLength, List.drop_append, hLong, List.append_assoc]
      exact strtol_append (by decide) hText (endsNumber_cr _)
    simp only [hRead, hText, true_and]
    exact ⟨fun h => h ⟨fun _ => [], [], []⟩, fun h _ => h⟩
  · have hBlank : ∀ c ∈ (line ++ crlf).drop 16, Blank c := by
      intro c hc
      rw [List.drop_append] at hc
      rcases List.mem_append.mp hc with hc | hc
      · exact by_contra fun hNot => hText ⟨c, hc, hNot⟩
      · exact blank_crlf c (List.mem_of_mem_drop hc)
    have hRead : ∀ m, lineLength m line = strtol 10 m.heap := fun m => strtol_blank hBlank
    refine ⟨fun hAll => ?_, fun h => absurd h.1 hText⟩
    obtain ⟨none, hNone⟩ := Memory.exists_heap []
    obtain ⟨one, hOne⟩ := Memory.exists_heap [49]
    have hSame := (hAll none).trans (hAll one).symm
    rw [hRead, hRead, hNone, hOne] at hSame
    exact absurd hSame (by decide)

/-! ### The size line -/

section Size

variable {m : Memory} {block : Segment}

theorem memmatchLoop_long {line rest : List UInt8} {c : UInt8} {src : Nat}
    (hDrop : block.drop src = line ++ rest) (hLine : c ∉ line) :
    memmatchLoop m block c line.length src = (line, src + line.length) := by
  induction line generalizing src with
  | nil => rfl
  | cons x line ih =>
    obtain ⟨hx, hLine⟩ := not_or.mp (mt List.mem_cons.mpr hLine)
    have hRest := ih (drop_succ hDrop) hLine
    rw [List.length_cons, memmatchLoop_next hDrop (Ne.symm hx), hRest]
    exact Prod.ext rfl (by simp; omega)

theorem memmatchLoop_le (c : UInt8) (n src : Nat) : src ≤ (memmatchLoop m block c n src).2 := by
  induction n generalizing src with
  | zero => exact Nat.le_refl _
  | succ n ih =>
    rw [memmatchLoop]
    split
    · exact Nat.le_refl _
    · exact Nat.le_trans (Nat.le_succ src) (ih (src + 1))

theorem memmatch_lt (m : Memory) (block : Segment) (old : List UInt8) (src : Nat) (c : UInt8)
    (count : Nat) : src < (memmatch m block old src c count).2 :=
  Nat.lt_succ_of_le (memmatchLoop_le c (count - 1) src)

/-- What `memmatch` writes of a line into sixteen bytes, and what follows there. -/
theorem memmatch_size {line rest : List UInt8} {src : Nat}
    (hDrop : block.drop src = line ++ 10 :: rest) (hLine : 10 ∉ line) (old : List UInt8) :
    ∃ more, memmatch m block old src 10 16 =
        ((line ++ [10]).take 15 ++ more, src + min (line.length + 1) 16) ∧
      (line.length < 15 → more.head? = some 0) ∧
      (15 ≤ line.length → more = old.drop 15) := by
  by_cases hShort : line.length < 15
  · have hLoop := memmatchLoop_found (m := m) hDrop hLine hShort
    refine ⟨0 :: old.drop (line.length + 2), ?_, fun _ => rfl, fun h => absurd h (by omega)⟩
    rw [memmatch, show 16 - 1 = 15 from rfl, hLoop, List.take_of_length_le (by simp; omega)]
    simp
    omega
  · have hSplit : block.drop src = line.take 15 ++ (line.drop 15 ++ 10 :: rest) := by
      rw [hDrop, ← List.append_assoc, List.take_append_drop]
    have hLength : (line.take 15).length = 15 := by
      rw [List.length_take]
      omega
    have hLoop := memmatchLoop_long (m := m) hSplit fun h => hLine (List.mem_of_mem_take h)
    rw [hLength] at hLoop
    refine ⟨old.drop 15, ?_, fun h => absurd h hShort, fun _ => rfl⟩
    rw [memmatch, show 16 - 1 = 15 from rfl, hLoop, List.take_append_of_le_length (by omega)]
    simp [hLength]
    omega

/-! ### The number of a size line -/

theorem strtol_ten {u t : List UInt8} (hTen : strtol 16 (u ++ 13 :: t) = 10)
    (hBlank : ∀ c ∈ t, Blank c) (t' : List UInt8) : strtol 16 (u ++ 13 :: t') = 10 := by
  have hText : ∃ c ∈ u, ¬Blank c := by
    by_contra hNone
    have hAll : ∀ c ∈ u ++ 13 :: t, Blank c := by
      intro c hc
      rcases List.mem_append.mp hc with hc | hc
      · exact by_contra fun hNot => hNone ⟨c, hc, hNot⟩
      · rcases List.mem_cons.mp hc with rfl | hc
        · decide
        · exact hBlank c hc
    have hNil : strtol 16 ((u ++ 13 :: t) ++ []) = strtol 16 [] := strtol_blank hAll
    rw [List.append_nil, hTen] at hNil
    exact absurd hNil (by decide)
  rw [strtol_append (by decide) hText (endsNumber_cr t)] at hTen
  rw [strtol_append (by decide) hText (endsNumber_cr t'), hTen]

theorem cstr_append {s : List UInt8} (hs : 0 ∉ s) (t : List UInt8) :
    cstr (s ++ t) = s ++ cstr t :=
  List.takeWhile_append_of_pos fun _ hc => decide_eq_true (ne_of_mem_of_not_mem hc hs)

theorem EndsNumber.append {t : List UInt8} (h : EndsNumber t) (hNonempty : t ≠ [])
    (u : List UInt8) : EndsNumber (t ++ u) := by
  obtain ⟨c, t, rfl⟩ := List.exists_cons_of_ne_nil hNonempty
  exact h

theorem EndsNumber.take {t : List UInt8} (h : EndsNumber t) {n : Nat} (hn : 0 < n) :
    EndsNumber (t.take n) := by
  obtain ⟨n, rfl⟩ := Nat.exists_eq_succ_of_ne_zero (by omega : n ≠ 0)
  cases t with
  | nil => exact h
  | cons c t => exact h

namespace SizeLine

variable (s : SizeLine)

/-- The line without its LF. -/
def text : List UInt8 := s.size ++ s.ext ++ [13]

theorem bytes_eq : s.bytes = s.text ++ [10] := by simp [bytes, text, crlf]

theorem text_proper : 0 ∉ s.text ∧ 10 ∉ s.text := by
  have hSize : 0 ∉ s.size ∧ 10 ∉ s.size :=
    ⟨fun h => absurd (s.hex 0 h) (by decide), fun h => absurd (s.hex 10 h) (by decide)⟩
  obtain ⟨hZero, hLf⟩ := s.proper
  simp [text, hSize, hZero, hLf]

theorem bytes_length : s.bytes.length = s.size.length + s.ext.length + 2 := by
  simp [bytes, crlf]
  omega

theorem ends : EndsNumber (s.ext ++ crlf) := by
  by_cases hExt : s.ext = []
  · rw [hExt]
    exact endsNumber_cr [10]
  · exact s.stops.append hExt crlf

theorem digits_bytes : digits 16 s.bytes = digits 16 s.size := digits_append (by decide) s.ends

theorem other_iff : (∃ c ∈ s.bytes.take 15, 16 ≤ digit c) ↔ s.size.length < 15 := by
  constructor
  · rintro ⟨c, hc, hDigit⟩
    by_contra hNot
    rw [bytes, List.take_append_of_le_length (by omega)] at hc
    have := s.hex c (List.mem_of_mem_take hc)
    omega
  · intro hShort
    obtain ⟨c, t, hRest⟩ : ∃ c t, s.ext ++ crlf = c :: t :=
      List.exists_cons_of_ne_nil (by simp [crlf])
    have hEnd := s.ends
    rw [hRest] at hEnd
    refine ⟨c, ?_, (hEnd c rfl).1⟩
    obtain ⟨n, hn⟩ := Nat.exists_eq_add_of_lt hShort
    rw [bytes, hRest, List.take_append, show 15 - s.size.length = n + 1 by omega,
      List.take_succ_cons]
    exact List.mem_append_right _ List.mem_cons_self

/-- The size is read to its end when one byte behind it is. -/
theorem strtol_take (hShort : s.size.length < 15) (more : List UInt8) :
    strtol 16 (cstr (s.bytes.take 15 ++ more)) =
      toInt (min (digits 16 s.bytes : Int) (2 ^ 63 - 1)) := by
  have hZero : 0 ∉ s.bytes.take 15 := by
    intro h
    have := List.mem_of_mem_take h
    rw [s.bytes_eq] at this
    simp [s.text_proper] at this
  have hTake : s.bytes.take 15 = s.size ++ (s.ext ++ crlf).take (15 - s.size.length) := by
    rw [bytes, List.take_append, List.take_of_length_le (by omega)]
  have hEnd : EndsNumber ((s.ext ++ crlf).take (15 - s.size.length) ++ cstr more) := by
    apply (s.ends.take (by omega)).append
    intro hNil
    rcases List.take_eq_nil_iff.mp hNil with h | h
    · omega
    · simp [crlf] at h
  have hText : ∃ c ∈ s.size, ¬Blank c := by
    obtain ⟨c, t, hSize⟩ := List.exists_cons_of_ne_nil s.nonempty
    have hc : c ∈ s.size := hSize ▸ List.mem_cons_self
    exact ⟨c, hc, not_blank_of_digit (s.hex c hc)⟩
  rw [cstr_append hZero, hTake, List.append_assoc, strtol_append (by decide) hText hEnd,
    strtol_hex s.nonempty s.hex, s.digits_bytes]

/-- Otherwise it is read on into what stands behind the array. -/
theorem strtol_take_one (hLong : 15 ≤ s.size.length) :
    strtol 16 (cstr (s.bytes.take 15 ++ [49])) ≠ 10 := by
  have hTake : s.bytes.take 15 = s.size.take 15 := List.take_append_of_le_length hLong
  have hHex : ∀ c ∈ s.size.take 15, digit c < 16 := fun c hc =>
    s.hex c (List.mem_of_mem_take hc)
  have hOne : ∀ c ∈ s.size.take 15 ++ [49], digit c < 16 := by
    intro c hc
    rcases List.mem_append.mp hc with hc | hc
    · exact hHex c hc
    · rw [List.mem_singleton.mp hc]
      decide
  have hZero : 0 ∉ s.size.take 15 := fun h => absurd (hHex 0 h) (by decide)
  have hDigit : digit 49 = 1 := by decide
  rw [hTake, cstr_append hZero, show cstr [49] = [49] by decide, strtol_hex (by simp) hOne,
    digits_concat hHex (by decide), hDigit]
  unfold toInt
  omega

end SizeLine

/-! ### The chunk -/

/-- The size lines that `DelHeader` reads behind the head. -/
def chunkPart (m : Memory) (block : Segment) (p : Nat) : Nat × Int :=
  let (size, p) := memmatch m block m.array p 10 16
  let chunk := strtol 16 (cstr size)
  if chunk = 10 then
    let (size, p) := memmatch m block size (p + 10) 10 16
    (p, strtol 16 (cstr size))
  else (p, chunk)

theorem chunkPart_lt (m : Memory) (block : Segment) (p : Nat) : p < (chunkPart m block p).1 := by
  have hFirst := memmatch_lt m block m.array p 10 16
  unfold chunkPart
  dsimp only
  split
  · have hSecond := memmatch_lt m block (memmatch m block m.array p 10 16).1
      ((memmatch m block m.array p 10 16).2 + 10) 10 16
    dsimp only
    omega
  · exact hFirst

variable {s : SizeLine} {rest : List UInt8} {p : Nat}

/-- The array with the first size line, which may go on with what nothing has written. -/
theorem memmatch_first (hDrop : block.drop p = s.bytes ++ rest) : ∃ more,
    memmatch m block m.array p 10 16 = (s.bytes.take 15 ++ more, p + min s.bytes.length 16) ∧
      (16 ≤ s.bytes.length → more = m.array.drop 15) := by
  rw [s.bytes_eq, List.append_assoc] at hDrop
  obtain ⟨more, hRun, -, hMore⟩ := memmatch_size (m := m) hDrop s.text_proper.2 m.array
  rw [s.bytes_eq, List.length_append, List.length_singleton]
  exact ⟨more, hRun, fun h => hMore (by omega)⟩

/-- The array with the line that is looked for behind ten bytes, when the size line goes on so
far. -/
theorem memmatch_second (hDrop : block.drop p = s.bytes ++ rest) (hLong : 26 < s.bytes.length)
    (old : List UInt8) : ∃ more,
    memmatch m block old (p + 16 + 10) 10 16 =
        ((s.bytes.drop 26).take 15 ++ more, p + 26 + min (s.bytes.length - 26) 16) ∧
      (s.bytes.length - 26 ≤ 15 → more.head? = some 0) ∧
      (15 < s.bytes.length - 26 → more = old.drop 15) := by
  have hLength : s.bytes.length = s.text.length + 1 := by
    rw [s.bytes_eq, List.length_append, List.length_singleton]
  have hBytes : s.bytes.drop 26 = s.text.drop 26 ++ [10] := by
    rw [s.bytes_eq, List.drop_append_of_le_length (by omega)]
  have hBehind : block.drop (p + 26) = s.text.drop 26 ++ 10 :: rest := by
    rw [← List.drop_drop, hDrop, List.drop_append_of_le_length (by omega), hBytes,
      List.append_assoc]
    rfl
  have hProper : 10 ∉ s.text.drop 26 := fun h => s.text_proper.2 (List.mem_of_mem_drop h)
  obtain ⟨more, hRun, hEnd, hMore⟩ := memmatch_size (m := m) hBehind hProper old
  rw [List.length_drop] at hRun hEnd hMore
  rw [hBytes, show s.bytes.length - 26 = s.text.length - 26 + 1 by omega]
  exact ⟨more, hRun, fun h => hEnd (by omega), fun h => hMore (by omega)⟩

/-- The number of that line is 10 whatever follows it in the array, or not. -/
theorem strtol_second (hLong : 26 < s.bytes.length) (hFits : s.bytes.length ≤ 42)
    {more : List UInt8} (hEnd : s.bytes.length - 26 ≤ 15 → more.head? = some 0) :
    (strtol 16 (s.bytes.drop 26) = 10 →
    strtol 16 (cstr ((s.bytes.drop 26).take 15 ++ more)) = 10) ∧
      ((15 < s.bytes.length - 26 → more = []) →
        strtol 16 (cstr ((s.bytes.drop 26).take 15 ++ more)) = 10 →
          strtol 16 (s.bytes.drop 26) = 10) := by
  have hZero : 0 ∉ s.bytes := by
    rw [s.bytes_eq]
    simp [s.text_proper]
  have hCut : 0 ∉ (s.bytes.drop 26).take 15 := fun h =>
    hZero (List.mem_of_mem_drop (List.mem_of_mem_take h))
  rw [cstr_append hCut]
  by_cases hShort : s.bytes.length - 26 ≤ 15
  · have hWhole : (s.bytes.drop 26).take 15 = s.bytes.drop 26 :=
      List.take_of_length_le (by rw [List.length_drop]; omega)
    have hNone : cstr more = [] := by
      obtain ⟨t, rfl⟩ := List.head?_eq_some_iff.mp (hEnd hShort)
      rfl
    rw [hWhole, hNone, List.append_nil]
    exact ⟨fun h => h, fun _ h => h⟩
  · have hLength := s.bytes_length
    have hDrop : s.bytes.drop 26 = (s.size ++ s.ext).drop 26 ++ crlf := by
      rw [SizeLine.bytes, ← List.append_assoc, List.drop_append_of_le_length]
      rw [List.length_append]
      omega
    have hTake : (s.bytes.drop 26).take 15 = (s.size ++ s.ext).drop 26 ++ [13] := by
      rw [hDrop, List.take_append, List.take_of_length_le]
      · rw [List.length_drop, List.length_append,
          show 15 - (s.size.length + s.ext.length - 26) = 1 by omega]
        rfl
      · rw [List.length_drop, List.length_append]
        omega
    rw [hTake, hDrop, List.append_assoc]
    constructor
    · exact fun hTen => strtol_ten hTen (List.forall_mem_cons.mp blank_crlf).2 (cstr more)
    · intro hMore hTen
      rw [hMore (by omega)] at hTen
      exact strtol_ten hTen (by simp [cstr]) [10]

theorem strtol_range (base : Nat) (t : List UInt8) : -2 ^ 31 ≤ strtol base t ∧
    strtol base t < 2 ^ 31 := by
  have hInt : ∀ x, -2 ^ 31 ≤ toInt x ∧ toInt x < 2 ^ 31 := by
    intro x
    unfold toInt
    omega
  unfold strtol
  dsimp only
  split <;> exact hInt _

theorem chunkPart_of_place (hDrop : block.drop p = s.bytes ++ rest)
    (hPlace : SizeInPlace s.bytes) :
    chunkPart m block p = (p + s.bytes.length, (digits 16 s.bytes : Int)) := by
  obtain ⟨more, hFirst, -⟩ := memmatch_first (m := m) hDrop
  have hLength := s.bytes_length
  rcases hPlace with ⟨hFits, hNot, hSmall⟩ | ⟨hTen, hOther, hLong, hFits, hAgain⟩
  · have hRead := s.strtol_take (by omega) more
    rw [(toInt_min _).mpr hSmall] at hRead
    have hNotTen : (digits 16 s.bytes : Int) ≠ 10 := by omega
    unfold chunkPart
    simp only [hFirst, hRead, if_neg hNotTen]
    rw [Nat.min_eq_left hFits]
  · have hRead := s.strtol_take (s.other_iff.mp hOther) more
    rw [(toInt_min _).mpr (by omega), hTen] at hRead
    obtain ⟨more', hSecond, hEnd, -⟩ := memmatch_second (m := m) hDrop hLong
      (s.bytes.take 15 ++ more)
    have hNumber := (strtol_second hLong hFits hEnd).1 hAgain
    rw [Nat.min_eq_right (by omega)] at hFirst
    unfold chunkPart
    simp only [hFirst, hRead, Nat.cast_ofNat, if_true, hSecond, hNumber, hTen]
    rw [Nat.min_eq_left (by omega)]
    exact Prod.ext (by dsimp only; omega) rfl

theorem exists_array (t : List UInt8) : ∃ m : Memory, m.array = t :=
    ⟨⟨fun _ => [], t, []⟩, rfl⟩

theorem place_of_chunkPart (hDrop : block.drop p = s.bytes ++ rest)
    (hAll : ∀ m, chunkPart m block p = (p + s.bytes.length, (digits 16 s.bytes : Int))) :
    SizeInPlace s.bytes := by
  have hLength := s.bytes_length
  by_cases hShort : s.size.length < 15
  · obtain ⟨m, hArray⟩ := exists_array []
    have hRun := hAll m
    obtain ⟨more, hFirst, hMore⟩ := memmatch_first (m := m) hDrop
    have hRead := s.strtol_take hShort more
    by_cases hTen : toInt (min (digits 16 s.bytes : Int) (2 ^ 63 - 1)) = 10
    · -- the second line starts ten bytes behind the first, so it must be the same one
      have hBehind := memmatch_lt m block (s.bytes.take 15 ++ more)
        (p + min s.bytes.length 16 + 10) 10 16
      unfold chunkPart at hRun
      simp only [hFirst, hRead, hTen, if_true] at hRun
      obtain ⟨hOffset, hNumber⟩ := Prod.mk.inj hRun
      have hLong : 26 < s.bytes.length := by omega
      rw [Nat.min_eq_right (by omega)] at hOffset hNumber
      obtain ⟨more', hSecond, hEnd, hMore'⟩ := memmatch_second (m := m) hDrop hLong
        (s.bytes.take 15 ++ more)
      rw [hSecond] at hOffset hNumber
      have hFits : s.bytes.length ≤ 42 := by
        dsimp only at hOffset
        omega
      have hRange := strtol_range 16 (cstr ((s.bytes.drop 26).take 15 ++ more'))
      rw [hNumber] at hRange
      rw [(toInt_min _).mpr (by omega)] at hTen
      rw [hTen] at hNumber
      have hNothing : 15 < s.bytes.length - 26 → more' = [] := by
        intro hCut
        rw [hMore' hCut, hMore (by omega), hArray]
        simp
      exact Or.inr ⟨by omega, s.other_iff.mpr hShort, hLong, hFits,
        (strtol_second hLong hFits hEnd).2 hNothing hNumber⟩
    · unfold chunkPart at hRun
      simp only [hFirst, hRead, if_neg hTen] at hRun
      obtain ⟨hOffset, hNumber⟩ := Prod.mk.inj hRun
      have hSmall := (toInt_min _).mp hNumber
      rw [hNumber] at hTen
      exact Or.inl ⟨by omega, by omega, hSmall⟩
  · -- the sixteenth byte of the array is a digit
    obtain ⟨m, hArray⟩ := exists_array (List.replicate 15 (0 : UInt8) ++ [49])
    obtain ⟨more, hFirst, hMore⟩ := memmatch_first (m := m) hDrop
    have hDigit : more = [49] := by
      rw [hMore (by omega), hArray]
      decide
    rw [hDigit] at hFirst
    have hNot := s.strtol_take_one (by omega)
    have hRun := hAll m
    unfold chunkPart at hRun
    simp only [hFirst, if_neg hNot] at hRun
    have := (Prod.mk.inj hRun).1
    omega

end Size

/-! ### The block -/

section Block

variable (h : ResponseHead) (body : List UInt8) (m : Memory) (stale : Nat)

theorem delHeader_other (hOther : ¬h.OneType) :
    (delHeader m stale (h.bytes ++ body)).textFlag = false := by
  obtain ⟨array, p, hStatus, -, hLoop⟩ := headerLoop_block h body m
  replace hLoop := hLoop hOther
  rw [delHeader, hStatus]
  simp only
  cases hRun : headerLoop m (h.bytes ++ body) 100 array p ⟨false, false, false, none⟩ with
  | mk header p =>
    rw [hRun] at hLoop
    obtain rfl : header = none := hLoop
    rfl

theorem delHeader_whole (hType : h.OneType) : delHeader m stale (h.bytes ++ []) =
    ⟨h.bytes.length, (h.header m).textFlag, (h.header m).gzipFlag,
      some (if h.Has chunkedText then 0 else (h.lengthLine.map (lineLength m)).getD 0),
      some h.bytes.length, true⟩ := by
  obtain ⟨array, p, hStatus, hLoop, -⟩ := headerLoop_block h [] m
  replace hLoop := hLoop hType
  rw [delHeader, hStatus]
  simp only [hLoop]
  rw [if_pos (by simp), header_chunkFlag, header_contentLength]
  simp only [decide_eq_true_iff]

theorem delHeader_chunk (hType : h.OneType) (hBody : body ≠ []) (hChunked : h.Has chunkedText) :
    delHeader m stale (h.bytes ++ body) =
      ⟨(chunkPart m (h.bytes ++ body) h.bytes.length).1, (h.header m).textFlag,
        (h.header m).gzipFlag, some (chunkPart m (h.bytes ++ body) h.bytes.length).2,
        some (min (chunkPart m (h.bytes ++ body) h.bytes.length).1 (h.bytes ++ body).length),
        false⟩ := by
  have hPos := List.length_pos_of_ne_nil hBody
  obtain ⟨array, p, hStatus, hLoop, -⟩ := headerLoop_block h body m
  replace hLoop := hLoop hType
  rw [delHeader, hStatus]
  simp only [hLoop]
  rw [if_neg (by rw [List.length_append]; omega), header_chunkFlag]
  simp only [hChunked, decide_true, if_true]
  rfl

theorem delHeader_length (hType : h.OneType) (hBody : body ≠ []) (hPlain : ¬h.Has chunkedText) :
    delHeader m stale (h.bytes ++ body) =
      ⟨h.bytes.length, (h.header m).textFlag, (h.header m).gzipFlag,
        some ((h.lengthLine.map (lineLength m)).getD (toInt stale)), some h.bytes.length,
          false⟩ := by
  have hPos := List.length_pos_of_ne_nil hBody
  obtain ⟨array, p, hStatus, hLoop, -⟩ := headerLoop_block h body m
  replace hLoop := hLoop hType
  rw [delHeader, hStatus]
  simp only [hLoop]
  rw [if_neg (by rw [List.length_append]; omega), header_chunkFlag, header_contentLength]
  simp [hPlain]

variable {h body}

/-- The flags are right when no line is taken for another type. -/
theorem analysed_iff_of_eq (hHtml : h.IsHtml) {p size : Memory → Nat}
    {chunk : Memory → Nat → Int} {whole : Bool}
    (hRun : ∀ m stale, delHeader m stale (h.bytes ++ body) =
      ⟨p m, (h.header m).textFlag, (h.header m).gzipFlag, some (chunk m stale),
        some (size m), whole⟩) :
    Analysed h body ↔ ∀ m stale, p m = h.dataStart body ∧ size m = h.dataStart body ∧
      chunk m stale = h.chunk body := by
  simp only [Analysed, hRun, header_textFlag h _ hHtml, header_gzipFlag, true_and, Option.some_inj]

theorem lengthLine_eq_none : h.lengthLine = none ↔ ¬h.Has lengthText := by
  rw [ResponseHead.lengthLine, List.getLast?_eq_none_iff, List.filter_eq_nil_iff]
  simp [ResponseHead.Has]

theorem length_eq_none (hNone : ¬h.Has lengthText) : h.length = none := by
  rw [ResponseHead.length, Option.map_eq_none_iff, List.find?_eq_none]
  intro line hLine hPrefix
  have hStart := of_decide_eq_true hPrefix
  exact hNone ⟨line, hLine, ((List.prefix_append _ _).trans hStart).isInfix⟩

theorem lengthInPlace_iff : h.LengthInPlace ↔
    ∃ line, h.lengthLine = some line ∧ ∀ m, lineLength m line = h.length.getD 0 := by
  simp only [ResponseHead.LengthInPlace, lineLength_iff]

theorem analysed_whole (hHtml : h.IsHtml) (hType : h.OneType) : Analysed h [] ↔
    h.Has chunkedText ∨ ¬h.Has lengthText ∨ h.LengthInPlace := by
  rw [analysed_iff_of_eq hHtml (fun m stale => delHeader_whole h m stale hType)]
  have hSize : sizeLine [] = [] := rfl
  have hDigits : digits 16 [] = 0 := rfl
  simp only [ResponseHead.dataStart, ResponseHead.chunk, hSize, hDigits, List.length_nil, ite_self,
    Nat.add_zero, true_and]
  by_cases hChunked : h.Has chunkedText
  · simp [hChunked]
  · rw [lengthInPlace_iff, ← lengthLine_eq_none]
    simp only [hChunked, if_false, false_or]
    cases hLine : h.lengthLine with
    | none => simp [length_eq_none (lengthLine_eq_none.mp hLine)]
    | some line => simp

theorem analysed_length (hHtml : h.IsHtml) (hType : h.OneType) (hBody : body ≠ [])
    (hPlain : ¬h.Has chunkedText) : Analysed h body ↔ h.LengthInPlace := by
  rw [analysed_iff_of_eq hHtml (fun m stale => delHeader_length h body m stale hType hBody hPlain)]
  simp only [ResponseHead.dataStart, ResponseHead.chunk, hPlain, if_false, Nat.add_zero, true_and]
  rw [lengthInPlace_iff]
  cases hLine : h.lengthLine with
  | none =>
    -- the variable is not written, and its values are not one
    refine ⟨fun hAll => ?_, fun ⟨line, hSome, _⟩ => absurd hSome nofun⟩
    have hSame : toInt (0 : Nat) = toInt (1 : Nat) :=
      (hAll quiet.toMemory 0).trans (hAll quiet.toMemory 1).symm
    unfold toInt at hSame
    omega
  | some line => simp

theorem analysed_chunk (hHtml : h.IsHtml) (hType : h.OneType) (hBody : body ≠ [])
    (hChunked : h.Has chunkedText)
    (hLine : 10 ∈ body → ∃ line : SizeLine, line.bytes <+: body) :
    Analysed h body ↔ 10 ∈ body ∧ SizeInPlace (sizeLine body) := by
  rw [analysed_iff_of_eq hHtml (fun m stale => delHeader_chunk h body m stale hType hBody hChunked)]
  simp only [ResponseHead.dataStart, ResponseHead.chunk, hChunked, if_true]
  by_cases hEnds : 10 ∈ body
  · obtain ⟨line, rest, rfl⟩ := hLine hEnds
    have hBytes : sizeLine (line.bytes ++ rest) = line.bytes := by
      rw [sizeLine, if_pos hEnds, line.bytes_eq, List.append_assoc, List.singleton_append,
        upTo_append line.text_proper.2]
    have hDrop : (h.bytes ++ (line.bytes ++ rest)).drop h.bytes.length = line.bytes ++ rest :=
      List.drop_left
    rw [hBytes, and_iff_right hEnds]
    constructor
    · intro hAll
      exact place_of_chunkPart hDrop fun m => Prod.ext (hAll m 0).1 (hAll m 0).2.2
    · intro hPlace m _
      rw [chunkPart_of_place hDrop hPlace]
      refine ⟨rfl, Nat.min_eq_left ?_, rfl⟩
      simp only [List.length_append]
      omega
  · refine ⟨fun hAll => ?_, fun h => absurd h.1 hEnds⟩
    have hBehind := chunkPart_lt quiet.toMemory (h.bytes ++ body) h.bytes.length
    rw [(hAll quiet.toMemory 0).1, sizeLine, if_neg hEnds] at hBehind
    exact absurd hBehind (by simp)

/-- `DelHeader` analyses the block exactly when the lines, the first chunk and the length can be
read. -/
theorem analysed_iff (h : ResponseHead) (body : List UInt8) (hHtml : h.IsHtml)
    (hLine : h.Has chunkedText → 10 ∈ body → ∃ line : SizeLine, line.bytes <+: body) :
    Analysed h body ↔ h.Readable body := by
  by_cases hType : h.OneType
  · rw [ResponseHead.Readable, and_iff_right hType]
    by_cases hBody : body = []
    · subst hBody
      rw [analysed_whole hHtml hType]
      by_cases hChunked : h.Has chunkedText
      · simp [hChunked]
      · simp [hChunked]
    · by_cases hChunked : h.Has chunkedText
      · rw [analysed_chunk hHtml hType hBody hChunked (hLine hChunked), if_pos hChunked]
        simp [hBody]
      · rw [analysed_length hHtml hType hBody hChunked, if_neg hChunked]
        simp [hBody]
  · refine ⟨fun hAll => ?_, fun h => absurd h.1 hType⟩
    have hText := (hAll quiet.toMemory 0).1
    rw [delHeader_other h body quiet.toMemory 0 hType] at hText
    exact Bool.noConfusion hText

/-- A response in chunks. -/
def chunkedPage : ResponseHead where
  status := ascii ['H', 'T', 'T', 'P', '/', '1', '.', '1', ' ', '2', '0', '0']
  lines := [typeText ++ [58, 32] ++ htmlText,
    ascii ['T', 'r', 'a', 'n', 's', 'f', 'e', 'r', '-', 'E', 'n', 'c', 'o', 'd', 'i', 'n',
      'g', ':', ' '] ++
      chunkedText]
  few := by decide
  short := by decide
  texts := by decide

/-- The first chunk has two bytes. -/
theorem analysed_iff_chunk : Analysed chunkedPage (ascii ['2', '\r', '\n', 'h', 'i']) := by
  apply (analysed_iff chunkedPage (ascii ['2', '\r', '\n', 'h', 'i']) ?_ fun _ _ => ?_).mpr
  · refine ⟨by decide, ?_⟩
    rw [if_pos (by decide)]
    exact Or.inr ⟨by decide, Or.inl (by decide)⟩
  · exact ⟨typeText ++ [58, 32] ++ htmlText, by decide, by decide, by decide⟩
  · have hHex : ∀ c ∈ [(50 : UInt8)], digit c < 16 := by
      intro c hc
      rw [List.mem_singleton.mp hc]
      decide
    exact ⟨⟨[50], [], by decide, hHex, endsNumber_nil, by decide⟩, ascii ['h', 'i'], rfl⟩

/-- A response with neither chunks nor a length. -/
def plainPage : ResponseHead where
  status := chunkedPage.status
  lines := [typeText ++ [58, 32] ++ htmlText]
  few := by decide
  short := by decide
  texts := by decide

/-- Without a length, `chunk_size` is what nothing has written. -/
theorem analysed_fails : ¬∀ (h : ResponseHead) (body : List UInt8), h.IsHtml →
    (h.Has chunkedText → 10 ∈ body → ∃ line : SizeLine, line.bytes <+: body) →
    Analysed h body := by
  intro hAll
  have hHtml : plainPage.IsHtml :=
    ⟨typeText ++ [58, 32] ++ htmlText, by decide, by decide, by decide⟩
  have hPlain : ¬plainPage.Has chunkedText := by decide
  have hRun := hAll plainPage (ascii ['h', 'i']) hHtml fun hChunked => absurd hChunked hPlain
  obtain ⟨line, hLine, -⟩ := (analysed_length hHtml (by decide) (by decide) hPlain).mp hRun
  rw [lengthLine_eq_none.mpr (by decide)] at hLine
  exact absurd hLine nofun

end Block

end Shutter.Gunzip
