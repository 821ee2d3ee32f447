import Shutter.Gunzip.Lines
import Shutter.Library.Occurrence

/-! The head of a response, and the loop of `DelHeader` over its lines.  The loop takes them right;
a line such as `X-Content-Type-Options` ends it as another type. -/

namespace Shutter.Gunzip

open Shutter.Acsm (cstr cstr_block)
open Shutter.Stream (Segment)
open Shutter.Library

/-! ### The head of a response -/

def crlf : List UInt8 := [13, 10]

def htmlText : List UInt8 := ascii ['t', 'e', 'x', 't', '/', 'h', 't', 'm', 'l']

def gzipText : List UInt8 := ascii ['g', 'z', 'i', 'p']

def chunkedText : List UInt8 := ascii ['c', 'h', 'u', 'n', 'k', 'e', 'd']

def lengthText : List UInt8 :=
  ascii ['C', 'o', 'n', 't', 'e', 'n', 't', '-', 'L', 'e', 'n', 'g', 't', 'h']

def typeText : List UInt8 :=
  ascii ['C', 'o', 'n', 't', 'e', 'n', 't', '-', 'T', 'y', 'p', 'e']

/-- A status line and header lines, without their ends. -/
structure ResponseHead where
  status : List UInt8
  lines : List (List UInt8)
  few : lines.length < 99
  short : ∀ line ∈ status :: lines, 10 ∉ line ∧ line.length + 2 < 2047
  texts : ∀ line ∈ lines, line ≠ [] ∧ 0 ∉ line

/-- The lines with their ends. -/
def ended (lines : List (List UInt8)) : List UInt8 := lines.flatMap (· ++ crlf)

/-- The bytes of the head, with the blank line. -/
def ResponseHead.bytes (h : ResponseHead) : List UInt8 :=
  h.status ++ crlf ++ (ended h.lines ++ crlf)

/-- A header line contains the text. -/
def ResponseHead.Has (h : ResponseHead) (t : List UInt8) : Prop := ∃ line ∈ h.lines, t <:+: line

instance (h : ResponseHead) (t : List UInt8) : Decidable (h.Has t) :=
  inferInstanceAs (Decidable (∃ line ∈ h.lines, t <:+: line))

/-- The type of the contents is `text/html`. -/
def ResponseHead.IsHtml (h : ResponseHead) : Prop :=
  ∃ line ∈ h.lines, typeText ++ [58] <+: line ∧ htmlText <:+: line

/-- No line of the head gives a type other than `text/html`. -/
def ResponseHead.OneType (h : ResponseHead) : Prop :=
  ∀ line ∈ h.lines, typeText <:+: line → htmlText <:+: line

instance (h : ResponseHead) : Decidable h.OneType :=
  inferInstanceAs (Decidable (∀ line ∈ h.lines, typeText <:+: line → htmlText <:+: line))

/-- The last line that `DelHeader` takes for the length. -/
def ResponseHead.lengthLine (h : ResponseHead) : Option (List UInt8) :=
  (h.lines.filter fun line => lengthText <:+: line).getLast?

/-! ### Texts in lines -/

theorem strstr_iff {s t : List UInt8} : strstr s t = true ↔ t <:+: s := by
  unfold strstr
  simp only [List.any_eq_true, List.mem_tails, List.isPrefixOf_iff_prefix]
  rw [List.infix_iff_prefix_suffix]
  exact exists_congr fun _ => and_comm

theorem strstr_ended {line t : List UInt8} (hCr : 13 ∉ t) (hLf : 10 ∉ t)
    (hNonempty : t ≠ []) :
    strstr (line ++ crlf) t = strstr line t := by
  rw [Bool.eq_iff_iff, strstr_iff, strstr_iff]
  constructor
  · intro h
    by_contra hNone
    have hOccurs := occurrence_isSome.mpr h
    rw [crlf, occurrence_append_cons hNone hCr, Option.isSome_map, occurrence_isSome] at hOccurs
    rcases List.infix_cons_iff.mp hOccurs with hPrefix | hNil
    · rcases t with _ | ⟨c, t⟩
      · exact hNonempty rfl
      · obtain ⟨rfl, -⟩ := List.cons_prefix_cons.mp hPrefix
        exact hLf List.mem_cons_self
    · exact hNonempty (List.infix_nil.mp hNil)
  · intro h
    exact h.trans (List.prefix_append line crlf).isInfix

/-! ### The loop over the lines -/

section Lines

variable (m : Memory) {block : Segment}

/-- A line that ends in the block, as `DelHeader` gets it. -/
theorem memmatch_line {line rest : List UInt8} {src : Nat}
    (hDrop : block.drop src = line ++ crlf ++ rest) (hLine : 10 ∉ line)
    (hShort : line.length + 2 < 2047) (old : List UInt8) : ∃ tail,
      memmatch m block old src 10 2048 = (line ++ crlf ++ 0 :: tail, src + (line.length + 2)) := by
  have hSplit : block.drop src = (line ++ [13]) ++ 10 :: rest := by
    rw [hDrop, crlf]
    simp
  have hNot : 10 ∉ line ++ [13] := by simp [hLine]
  have hLoop := memmatchLoop_found (m := m) (n := 2047) hSplit hNot
    (by rw [List.length_append, List.length_singleton]; omega)
  refine ⟨old.drop (line.length + 3), ?_⟩
  rw [memmatch, show 2048 - 1 = 2047 from rfl, hLoop]
  simp [crlf]
  omega

theorem otherType_ended (line : List UInt8) : otherType (line ++ crlf) = true ↔
    typeText <:+: line ∧ ¬htmlText <:+: line := by
  have hType : strstr (line ++ crlf) typeText = strstr line typeText :=
    strstr_ended (by decide) (by decide) (by decide)
  have hHtml : strstr (line ++ crlf) htmlText = strstr line htmlText :=
    strstr_ended (by decide) (by decide) (by decide)
  unfold typeText at hType
  unfold htmlText at hHtml
  rw [otherType, hType, hHtml, Bool.and_eq_true, Bool.not_eq_true', ← Bool.not_eq_true,
    strstr_iff, strstr_iff]
  rfl

/-- What the lines add to the header. -/
def Header.lines (m : Memory) (h : Header) (lines : List (List UInt8)) : Header :=
  lines.foldl (fun h line => h.line m (line ++ crlf)) h

theorem Header.line_blank (h : Header) : h.line m crlf = h := by
  have hNone : ∀ t ∈ [htmlText, gzipText, chunkedText, lengthText], strstr crlf t = false := by
    decide
  obtain ⟨textFlag, gzipFlag, chunkFlag, length⟩ := h
  have hHtml := hNone htmlText (by simp)
  have hGzip := hNone gzipText (by simp)
  have hChunked := hNone chunkedText (by simp)
  have hLength := hNone lengthText (by simp)
  unfold htmlText at hHtml
  unfold gzipText at hGzip
  unfold chunkedText at hChunked
  unfold lengthText at hLength
  simp [Header.line, hHtml, hGzip, hChunked, hLength]

theorem headerLoop_head {lines : List (List UInt8)} {body : List UInt8} (old : List UInt8) {p : Nat}
    (loopcount : Nat) (h : Header) (hDrop : block.drop p = ended lines ++ (crlf ++ body))
    (hShort : ∀ line ∈ lines, 10 ∉ line ∧ line.length + 2 < 2047)
    (hTexts : ∀ line ∈ lines, line ≠ [] ∧ 0 ∉ line) (hCount : lines.length < loopcount) :
    ((∀ line ∈ lines, typeText <:+: line → htmlText <:+: line) →
      headerLoop m block loopcount old p h =
        (some (h.lines m lines), p + ((ended lines).length + 2))) ∧
    ((¬∀ line ∈ lines, typeText <:+: line → htmlText <:+: line) →
      (headerLoop m block loopcount old p h).1 = none) := by
  induction lines generalizing old p loopcount h with
  | nil =>
    obtain ⟨loopcount, rfl⟩ : ∃ k, loopcount = k + 1 :=
      ⟨loopcount - 1, by simp at hCount; omega⟩
    have hFirst : block.drop p = [] ++ crlf ++ body := hDrop
    obtain ⟨tail, hLine⟩ := memmatch_line m hFirst (by simp) (by simp) old
    have hText : cstr (crlf ++ 0 :: tail) = crlf := cstr_block (by decide) tail
    have hOther : otherType crlf = false := by decide
    have hBlank : crlf.length = 2 := rfl
    refine ⟨fun _ => ?_, fun hNot => absurd (by simp) hNot⟩
    rw [headerLoop, hLine, List.nil_append]
    simp only [hText, hOther, hBlank, Header.line_blank, if_true]
    rfl
  | cons line lines ih =>
    obtain ⟨loopcount, rfl⟩ : ∃ k, loopcount = k + 1 :=
      ⟨loopcount - 1, by simp at hCount; omega⟩
    obtain ⟨⟨hLf, hFits⟩, hShort⟩ := List.forall_mem_cons.mp hShort
    obtain ⟨⟨hNonempty, hZero⟩, hTexts⟩ := List.forall_mem_cons.mp hTexts
    have hFirst : block.drop p = line ++ crlf ++ (ended lines ++ (crlf ++ body)) := by
      rw [hDrop, ended, List.flatMap_cons, List.append_assoc]
      rfl
    obtain ⟨tail, hLine⟩ := memmatch_line m hFirst hLf hFits old
    have hText : cstr (line ++ crlf ++ 0 :: tail) = line ++ crlf :=
      cstr_block (by simp [hZero, crlf]) tail
    have hLength : (line ++ crlf).length = line.length + 2 := List.length_append
    have hNotBlank : (line ++ crlf).length ≠ 2 := by
      have := List.length_pos_of_ne_nil hNonempty
      omega
    have hRest : block.drop (p + (line.length + 2)) = ended lines ++ (crlf ++ body) := by
      rw [← List.drop_drop, hFirst, ← hLength, List.drop_left]
    have hNext := ih (line ++ crlf ++ 0 :: tail) loopcount (h.line m (line ++ crlf)) hRest hShort
      hTexts (by simp at hCount; omega)
    by_cases hOther : otherType (line ++ crlf) = true
    · obtain ⟨hType, hHtml⟩ := (otherType_ended line).mp hOther
      refine ⟨fun hAll => absurd (hAll line List.mem_cons_self hType) hHtml, fun _ => ?_⟩
      rw [headerLoop, hLine]
      simp only [hText, hOther, if_true]
    · have hSame : (∀ l ∈ line :: lines, typeText <:+: l → htmlText <:+: l) ↔
          ∀ l ∈ lines, typeText <:+: l → htmlText <:+: l := by
        rw [List.forall_mem_cons]
        exact and_iff_right fun hType => by_contra fun hHtml =>
          hOther ((otherType_ended line).mpr ⟨hType, hHtml⟩)
      have hRun : headerLoop m block (loopcount + 1) old p h =
          headerLoop m block loopcount (line ++ crlf ++ 0 :: tail) (p + (line.length + 2))
            (h.line m (line ++ crlf)) := by
        rw [headerLoop, hLine]
        simp only [hText, if_neg hOther, if_neg hNotBlank]
      rw [hRun, hSame]
      refine ⟨fun hAll => ?_, hNext.2⟩
      rw [hNext.1 hAll]
      simp only [Header.lines, List.foldl_cons, ended, List.flatMap_cons, List.length_append,
        hLength, Prod.mk.injEq, true_and]
      omega

/-! ### What the lines add -/

/-- The number at the seventeenth byte of a line. -/
def lineLength (m : Memory) (line : List UInt8) : Int :=
  strtol 10 ((line ++ crlf).drop 16 ++ m.heap)

theorem Header.line_ended (h : Header) (line : List UInt8) : h.line m (line ++ crlf) =
    ⟨h.textFlag || strstr line htmlText, h.gzipFlag || strstr line gzipText,
      h.chunkFlag || strstr line chunkedText,
      if strstr line lengthText then some (lineLength m line) else h.contentLength⟩ := by
  have hEnded : ∀ t ∈ [htmlText, gzipText, chunkedText, lengthText],
      strstr (line ++ crlf) t = strstr line t := by
    intro t ht
    have hProper : ∀ t ∈ [htmlText, gzipText, chunkedText, lengthText],
        13 ∉ t ∧ 10 ∉ t ∧ t ≠ [] := by decide
    obtain ⟨hCr, hLf, hNonempty⟩ := hProper t ht
    exact strstr_ended hCr hLf hNonempty
  rw [← hEnded htmlText (by simp), ← hEnded gzipText (by simp),
    ← hEnded chunkedText (by simp),
    ← hEnded lengthText (by simp)]
  rfl

theorem Header.lines_concat (h : Header) (lines : List (List UInt8)) (line : List UInt8) :
    h.lines m (lines ++ [line]) = (h.lines m lines).line m (line ++ crlf) := by
  rw [Header.lines, Header.lines, List.foldl_append]
  rfl

theorem Header.lines_eq (h : Header) (lines : List (List UInt8)) : h.lines m lines =
    ⟨h.textFlag || lines.any (strstr · htmlText), h.gzipFlag || lines.any (strstr · gzipText),
      h.chunkFlag || lines.any (strstr · chunkedText),
      ((lines.filter (strstr · lengthText)).getLast?.map (lineLength m)).or
      h.contentLength⟩ := by
  induction lines using List.reverseRecOn with
  | nil => simp [Header.lines]
  | append_singleton lines line ih =>
    rw [Header.lines_concat, ih, Header.line_ended]
    simp only [List.any_append, List.any_cons, List.any_nil, Bool.or_false, Bool.or_assoc,
      List.filter_append, Header.mk.injEq, true_and]
    by_cases hLength : strstr line lengthText = true
    · simp [hLength]
    · simp [hLength]

end Lines

/-! ### The block -/

section Block

variable (h : ResponseHead) (body : List UInt8) (m : Memory) (stale : Nat)

/-- What the lines of the head add to nothing. -/
def ResponseHead.header (m : Memory) : Header :=
  (⟨false, false, false, none⟩ : Header).lines m h.lines

theorem any_strstr (lines : List (List UInt8)) (t : List UInt8) :
    lines.any (strstr · t) = true ↔ ∃ line ∈ lines, t <:+: line := by
  rw [List.any_eq_true]
  exact exists_congr fun line => and_congr_right fun _ => strstr_iff

theorem bytes_length : h.bytes.length = h.status.length + 2 + ((ended h.lines).length + 2) := by
  simp only [ResponseHead.bytes, crlf, List.length_append, List.length_cons, List.length_nil]

theorem header_eq : h.header m =
    ⟨h.lines.any (strstr · htmlText), h.lines.any (strstr · gzipText),
      h.lines.any (strstr · chunkedText), h.lengthLine.map (lineLength m)⟩ := by
  have hFilter : h.lines.filter (strstr · lengthText) =
      h.lines.filter fun line => lengthText <:+: line := by
    apply List.filter_congr
    intro line _
    rw [Bool.eq_iff_iff, strstr_iff, decide_eq_true_iff]
  rw [ResponseHead.header, Header.lines_eq, hFilter, Option.or_none]
  simp only [Bool.false_or, ResponseHead.lengthLine]

theorem header_textFlag (hHtml : h.IsHtml) : (h.header m).textFlag = true := by
  obtain ⟨line, hLine, -, hText⟩ := hHtml
  rw [header_eq]
  exact (any_strstr _ _).mpr ⟨line, hLine, hText⟩

theorem header_gzipFlag : (h.header m).gzipFlag = true ↔ h.Has gzipText := by
  rw [header_eq]
  exact any_strstr _ _

theorem header_chunkFlag : (h.header m).chunkFlag = decide (h.Has chunkedText) := by
  rw [Bool.eq_iff_iff, decide_eq_true_iff, header_eq]
  exact any_strstr _ _

theorem header_contentLength : (h.header m).contentLength = h.lengthLine.map (lineLength m) := by
  rw [header_eq]

/-- The status line and the loop. -/
theorem headerLoop_block : ∃ array p,
    memmatch m (h.bytes ++ body) m.array 0 10 2048 = (array, p) ∧
    (h.OneType → headerLoop m (h.bytes ++ body) 100 array p ⟨false, false, false, none⟩ =
      (some (h.header m), h.bytes.length)) ∧
    (¬h.OneType →
      (headerLoop m (h.bytes ++ body) 100 array p ⟨false, false, false, none⟩).1 = none) := by
  obtain ⟨⟨hLf, hFits⟩, hShort⟩ := List.forall_mem_cons.mp h.short
  have hStatus : (h.bytes ++ body).drop 0 = h.status ++ crlf ++
    (ended h.lines ++ (crlf ++ body)) := by
    simp only [ResponseHead.bytes, List.drop_zero, List.append_assoc]
  obtain ⟨tail, hLine⟩ := memmatch_line m hStatus hLf hFits m.array
  have hLength : (h.status ++ crlf).length = 0 + (h.status.length + 2) := by
    rw [List.length_append, Nat.zero_add]
    rfl
  have hRest : (h.bytes ++ body).drop (0 + (h.status.length + 2)) =
      ended h.lines ++ (crlf ++ body) := by
    rw [← List.drop_drop, hStatus, ← Nat.zero_add (h.status.length + 2), ← hLength,
      List.drop_left]
  obtain ⟨hRun, hNone⟩ := headerLoop_head m (h.status ++ crlf ++ 0 :: tail) 100
    ⟨false, false, false, none⟩ hRest hShort h.texts (by have := h.few; omega)
  refine ⟨_, _, hLine, fun hType => ?_, hNone⟩
  rw [hRun hType, bytes_length, Nat.zero_add]
  rfl

end Block

end Shutter.Gunzip
