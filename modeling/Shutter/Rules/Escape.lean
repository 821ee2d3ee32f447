import Shutter.Rules.Down

/-! The escaped form of a keyword.  `strtounicode` takes three bytes for each byte that is not
ASCII, which is right for the characters of three bytes in UTF-8; the others leave it at a byte that
continues nothing. -/

namespace Shutter.Rules

open Shutter.Acsm

/-- The bytes of a string in UTF-8. -/
def utf8 (cs : List Char) : List UInt8 := cs.flatMap String.utf8EncodeChar

/-- The characters with an escape or without the need for one: those of one byte and of three. -/
def Escapable (c : Char) : Prop := c.toNat < 0x80 ∨ 0x800 ≤ c.toNat ∧ c.toNat ≤ 0xFFFF

instance (c : Char) : Decidable (Escapable c) :=
  inferInstanceAs (Decidable (c.toNat < 0x80 ∨ 0x800 ≤ c.toNat ∧ c.toNat ≤ 0xFFFF))

/-- A hexadecimal digit, in lower case. -/
def hexDigit (n : Nat) : UInt8 := UInt8.ofNat (Nat.digitChar n).toNat

/-- The four digits of a code point. -/
def hexDigits (n : Nat) : List UInt8 :=
  [hexDigit (n / 4096 % 16), hexDigit (n / 256 % 16), hexDigit (n / 16 % 16), hexDigit (n % 16)]

/-- The form of a character in the output: an ASCII character stands for itself. -/
def escape (c : Char) : List UInt8 :=
  if c.toNat < 0x80 then [UInt8.ofNat c.toNat] else ascii ['\\', 'u'] ++ hexDigits c.toNat

/-- The value of a hexadecimal digit. -/
def digitValue (b : UInt8) : Nat := if b < 58 then b.toNat - 48 else b.toNat - 87

/-- The value of four digits. -/
def digitsValue (d₁ d₂ d₃ d₄ : UInt8) : Nat :=
  4096 * digitValue d₁ + 256 * digitValue d₂ + 16 * digitValue d₃ + digitValue d₄

/-- The string with the UTF-8 encoding of `XXXX` for each `\uXXXX`. -/
def unescape : List UInt8 → List UInt8
  | 92 :: 117 :: d₁ :: d₂ :: d₃ :: d₄ :: s =>
    String.utf8EncodeChar (Char.ofNat (digitsValue d₁ d₂ d₃ d₄)) ++ unescape s
  | b :: s => b :: unescape s
  | [] => []

/-! ### Bytes -/

/-- What holds of the first 256 numbers holds of all bytes. -/
theorem forall_byte {P : UInt8 → Prop} (h : ∀ n : Fin 256, P (UInt8.ofNat n))
    (b : UInt8) : P b := by
  have hb := h ⟨b.toNat, b.toNat_lt⟩
  rwa [UInt8.ofNat_toNat] at hb

theorem ascii_iff (b : UInt8) : b &&& 0x80 = 0 ↔ b.toNat < 128 :=
  forall_byte (P := fun b => b &&& 0x80 = 0 ↔ b.toNat < 128) (by decide +kernel) b

theorem continues_iff (b : UInt8) : b &&& 0xC0 = 0x80 ↔ 128 ≤ b.toNat ∧ b.toNat < 192 :=
  forall_byte (P := fun b => b &&& 0xC0 = 0x80 ↔ 128 ≤ b.toNat ∧ b.toNat < 192)
    (by decide +kernel) b

theorem hexByte_eq (b : UInt8) : hexByte b = [hexDigit (b.toNat / 16), hexDigit (b.toNat % 16)] :=
  forall_byte (P := fun b => hexByte b = [hexDigit (b.toNat / 16), hexDigit (b.toNat % 16)])
    (by decide +kernel) b

/-- The first byte that is escaped, from the four low bits of the first byte of the character. -/
theorem toNat_high (b₁ b₂ : UInt8) : ((b₁ <<< 4) + ((b₂ >>> 2) &&& 0x0F)).toNat =
    b₁.toNat % 16 * 16 + b₂.toNat / 4 % 16 := by
  have h₁ : (b₁ <<< 4).toNat = b₁.toNat % 16 * 16 :=
    forall_byte (P := fun b => (b <<< 4).toNat = b.toNat % 16 * 16) (by decide +kernel) b₁
  have h₂ : ((b₂ >>> 2) &&& 0x0F).toNat = b₂.toNat / 4 % 16 :=
    forall_byte (P := fun b => ((b >>> 2) &&& 0x0F).toNat = b.toNat / 4 % 16)
      (by decide +kernel) b₂
  rw [UInt8.toNat_add, h₁, h₂]
  omega

/-- The second byte that is escaped, from the two low bits of the second byte. -/
theorem toNat_low (b₂ b₃ : UInt8) : ((b₂ <<< 6) + (b₃ &&& 0x3F)).toNat =
    b₂.toNat % 4 * 64 + b₃.toNat % 64 := by
  have h₂ : (b₂ <<< 6).toNat = b₂.toNat % 4 * 64 :=
    forall_byte (P := fun b => (b <<< 6).toNat = b.toNat % 4 * 64) (by decide +kernel) b₂
  have h₃ : (b₃ &&& 0x3F).toNat = b₃.toNat % 64 :=
    forall_byte (P := fun b => (b &&& 0x3F).toNat = b.toNat % 64) (by decide +kernel) b₃
  rw [UInt8.toNat_add, h₂, h₃]
  omega

theorem digitValue_hexDigit : ∀ n < 16, digitValue (hexDigit n) = n := by decide +kernel

theorem digitsValue_hexDigits {n : Nat} (h : n ≤ 0xFFFF) :
    digitsValue (hexDigit (n / 4096 % 16)) (hexDigit (n / 256 % 16)) (hexDigit (n / 16 % 16))
      (hexDigit (n % 16)) = n := by
  rw [digitsValue, digitValue_hexDigit _ (Nat.mod_lt _ (by decide)),
    digitValue_hexDigit _ (Nat.mod_lt _ (by decide)),
    digitValue_hexDigit _ (Nat.mod_lt _ (by decide)),
    digitValue_hexDigit _ (Nat.mod_lt _ (by decide))]
  omega

/-! ### Characters -/

/-- The string begins with no byte that continues a character. -/
def Starts (s : List UInt8) : Prop := ∀ b t, s = b :: t → b &&& 0xC0 ≠ 0x80

/-- The encodings of the characters by the number of their bytes: all bytes behind the first
continue it, and the first does not. -/
inductive Encoded (c : Char) : List UInt8 → Prop
  | one (b : UInt8) : b &&& 0x80 = 0 → c.toNat = b.toNat → b &&& 0xC0 ≠ 0x80 → Encoded c [b]
  | two (b₁ b₂ : UInt8) : ¬Escapable c → b₁ &&& 0x80 ≠ 0 → b₁ &&& 0xC0 ≠ 0x80 →
      Encoded c [b₁, b₂]
  | three (b₁ b₂ b₃ : UInt8) : 0x800 ≤ c.toNat → c.toNat ≤ 0xFFFF →
      b₁ &&& 0x80 ≠ 0 →
      b₁ &&& 0xC0 ≠ 0x80 → b₂ &&& 0xC0 = 0x80 → b₃ &&& 0xC0 = 0x80 →
      ((b₁ <<< 4) + ((b₂ >>> 2) &&& 0x0F)).toNat = c.toNat / 256 →
      ((b₂ <<< 6) + (b₃ &&& 0x3F)).toNat = c.toNat % 256 → Encoded c [b₁, b₂, b₃]
  | four (b₁ b₂ b₃ b₄ : UInt8) : ¬Escapable c → b₁ &&& 0x80 ≠ 0 →
      b₁ &&& 0xC0 ≠ 0x80 →
      b₄ &&& 0x80 ≠ 0 → Encoded c [b₁, b₂, b₃, b₄]

theorem toNat_ofNat {n : Nat} (h : n < 256) : (UInt8.ofNat n).toNat = n := by
  rw [UInt8.toNat_ofNat']
  omega

theorem encoded (c : Char) : Encoded c (String.utf8EncodeChar c) := by
  have hv : c.val.toNat = c.toNat := rfl
  unfold String.utf8EncodeChar
  rw [hv]
  simp only
  split
  · rename_i h
    refine .one _ ?_ ?_ ?_
    · rw [ascii_iff, toNat_ofNat (by omega)]
      omega
    · rw [toNat_ofNat (by omega)]
    · rw [Ne, continues_iff, toNat_ofNat (by omega)]
      omega
  split
  · rename_i h₁ h₂
    refine .two _ _ ?_ ?_ ?_
    · unfold Escapable
      omega
    · rw [Ne, ascii_iff, toNat_ofNat (by omega)]
      omega
    · rw [Ne, continues_iff, toNat_ofNat (by omega)]
      omega
  split
  · rename_i h₁ h₂ h₃
    refine .three _ _ _ (by omega) h₃ ?_ ?_ ?_ ?_ ?_ ?_
    · rw [Ne, ascii_iff, toNat_ofNat (by omega)]
      omega
    · rw [Ne, continues_iff, toNat_ofNat (by omega)]
      omega
    · rw [continues_iff, toNat_ofNat (by omega)]
      omega
    · rw [continues_iff, toNat_ofNat (by omega)]
      omega
    · rw [toNat_high, toNat_ofNat (by omega), toNat_ofNat (by omega)]
      omega
    · rw [toNat_low, toNat_ofNat (by omega), toNat_ofNat (by omega)]
      omega
  · rename_i h₁ h₂ h₃
    refine .four _ _ _ _ ?_ ?_ ?_ ?_
    · unfold Escapable
      omega
    · rw [Ne, ascii_iff, toNat_ofNat (by omega)]
      omega
    · rw [Ne, continues_iff, toNat_ofNat (by omega)]
      omega
    · rw [Ne, ascii_iff, toNat_ofNat (by omega)]
      omega

theorem utf8_cons (c : Char) (cs : List Char) :
    utf8 (c :: cs) = String.utf8EncodeChar c ++ utf8 cs := List.flatMap_cons

theorem starts_utf8 (cs : List Char) : Starts (utf8 cs) := by
  intro b t h
  cases cs with
  | nil => cases h
  | cons c cs =>
    rw [utf8_cons] at h
    have hEncoded := encoded c
    generalize String.utf8EncodeChar c = bytes at h hEncoded
    cases hEncoded with
    | one _ _ _ hb => exact (List.cons.inj h).1 ▸ hb
    | two _ _ _ _ hb => exact (List.cons.inj h).1 ▸ hb
    | three _ _ _ _ _ _ hb => exact (List.cons.inj h).1 ▸ hb
    | four _ _ _ _ _ _ hb => exact (List.cons.inj h).1 ▸ hb

/-! ### The output -/

/-- A byte that is not ASCII, with no two bytes behind it that continue it. -/
theorem strtounicode_none {b : UInt8} {s : List UInt8} (hb : b &&& 0x80 ≠ 0)
    (h : ∀ b₂ b₃ t, s = b₂ :: b₃ :: t → b₂ &&& 0xC0 ≠ 0x80 ∨
    b₃ &&& 0xC0 ≠ 0x80) :
    strtounicode (b :: s) = none := by
  unfold strtounicode
  simp only [if_neg hb]
  split
  · rename_i b₂ b₃ t
    rw [if_pos (h b₂ b₃ t rfl)]
  · rfl

theorem strtounicode_ascii {b : UInt8} (hb : b &&& 0x80 = 0) (s : List UInt8) :
    strtounicode (b :: s) = (strtounicode s).map (b :: ·) := by
  conv_lhs => unfold strtounicode
  simp only [if_pos hb]
  cases strtounicode s <;> rfl

theorem strtounicode_three {b₁ b₂ b₃ : UInt8} (hb₁ : b₁ &&& 0x80 ≠ 0)
    (hb₂ : b₂ &&& 0xC0 = 0x80) (hb₃ : b₃ &&& 0xC0 = 0x80) (s : List UInt8) :
    strtounicode (b₁ :: b₂ :: b₃ :: s) = (strtounicode s).map (92 :: 117 ::
      hexByte ((b₁ <<< 4) + ((b₂ >>> 2) &&& 0x0F)) ++ hexByte
        ((b₂ <<< 6) + (b₃ &&& 0x3F)) ++ ·) := by
  rw [strtounicode, if_neg hb₁]
  simp only [hb₂, hb₃, ne_eq, not_true_eq_false, or_self, if_false]
  cases strtounicode s <;> rfl

/-- One character of the string. -/
theorem strtounicode_char (c : Char) {s : List UInt8} (hs : Starts s) :
    strtounicode (String.utf8EncodeChar c ++ s) =
      if Escapable c then (strtounicode s).map (escape c ++ ·) else none := by
  have hEncoded := encoded c
  generalize String.utf8EncodeChar c = bytes at hEncoded
  cases hEncoded with
  | one b hb hc _ =>
    have hLow : c.toNat < 0x80 := hc ▸ (ascii_iff b).mp hb
    have hEscape : escape c = [b] := by
      rw [escape, if_pos hLow, hc, UInt8.ofNat_toNat]
    rw [if_pos (show Escapable c from Or.inl hLow), hEscape]
    exact strtounicode_ascii hb s
  | two b₁ b₂ hc hb =>
    rw [if_neg hc]
    refine strtounicode_none hb fun b₂' b₃ t heq => Or.inr ?_
    exact hs b₃ t (List.cons.inj heq).2
  | three b₁ b₂ b₃ hLow hHigh hb₁ _ hb₂ hb₃ hFirst hSecond =>
    have hEscape : escape c = 92 :: 117 :: hexByte ((b₁ <<< 4) + ((b₂ >>> 2) &&& 0x0F)) ++
        hexByte ((b₂ <<< 6) + (b₃ &&& 0x3F)) := by
      have h₁ : c.toNat / 256 / 16 = c.toNat / 4096 % 16 := by omega
      have h₃ : c.toNat % 256 / 16 = c.toNat / 16 % 16 := by omega
      have h₄ : c.toNat % 256 % 16 = c.toNat % 16 := by omega
      rw [escape, if_neg (by omega), hexByte_eq, hexByte_eq, hFirst, hSecond, h₁, h₃, h₄]
      rfl
    rw [if_pos (show Escapable c from Or.inr ⟨hLow, hHigh⟩), hEscape]
    exact strtounicode_three hb₁ hb₂ hb₃ s
  | four b₁ b₂ b₃ b₄ hc hb₁ _ hb₄ =>
    rw [if_neg hc]
    -- the fourth byte is taken for a first one, and the next character does not continue it
    have hRest : strtounicode (b₄ :: s) = none :=
      strtounicode_none hb₄ fun b₂' b₃' t heq => Or.inl (hs b₂' _ heq)
    by_cases hContinues : b₂ &&& 0xC0 = 0x80 ∧ b₃ &&& 0xC0 = 0x80
    · have hThree := strtounicode_three hb₁ hContinues.1 hContinues.2 (b₄ :: s)
      rw [hRest] at hThree
      exact hThree
    · refine strtounicode_none hb₁ fun b₂' b₃' t heq => ?_
      obtain ⟨h₂, hTail⟩ := List.cons.inj heq
      obtain ⟨h₃, -⟩ := List.cons.inj hTail
      rw [← h₂, ← h₃]
      exact not_and_or.mp hContinues

theorem strtounicode_eq (cs : List Char) :
    strtounicode (utf8 cs) =
      if cs.all (decide <| Escapable ·) then some (cs.flatMap escape) else none := by
  induction cs with
  | nil => rfl
  | cons c cs ih =>
    rw [utf8_cons, strtounicode_char c (starts_utf8 cs), ih, List.all_cons]
    by_cases hc : Escapable c
    · rw [if_pos hc, decide_eq_true hc, Bool.true_and]
      by_cases hAll : cs.all (decide <| Escapable ·)
      · rw [if_pos hAll, if_pos hAll]
        rfl
      · rw [if_neg hAll, if_neg hAll]
        rfl
    · rw [if_neg hc, decide_eq_false hc, Bool.false_and]
      rfl

/-! ### Back -/

theorem unescape_other {b : UInt8} (hb : b ≠ 92) (s : List UInt8) :
    unescape (b :: s) = b :: unescape s := by
  rw [unescape]
  rintro _ _ _ _ _ rfl
  exact absurd rfl hb

theorem unescape_escape {c : Char} (hc : Escapable c) (hBackslash : c ≠ '\\') (s : List UInt8) :
    unescape (escape c ++ s) = String.utf8EncodeChar c ++ unescape s := by
  by_cases hLow : c.toNat < 0x80
  · have hBytes : String.utf8EncodeChar c = [UInt8.ofNat c.toNat] :=
      if_pos (show c.toNat ≤ 0x7f by omega)
    have hOther : UInt8.ofNat c.toNat ≠ 92 := by
      intro heq
      have hNat := congrArg UInt8.toNat heq
      rw [toNat_ofNat (by omega)] at hNat
      exact hBackslash (Char.toNat_inj.mp hNat)
    rw [escape, if_pos hLow, hBytes]
    exact unescape_other hOther s
  · have hHigh : c.toNat ≤ 0xFFFF := (hc.resolve_left hLow).2
    have hCode : Char.ofNat (digitsValue (hexDigit (c.toNat / 4096 % 16))
        (hexDigit (c.toNat / 256 % 16)) (hexDigit (c.toNat / 16 % 16))
        (hexDigit (c.toNat % 16))) = c := by
      rw [digitsValue_hexDigits hHigh, Char.ofNat_toNat]
    have hEscape : escape c ++ s = 92 :: 117 :: hexDigit (c.toNat / 4096 % 16) ::
        hexDigit (c.toNat / 256 % 16) :: hexDigit (c.toNat / 16 % 16) ::
        hexDigit (c.toNat % 16) :: s := by
      rw [escape, if_neg hLow]
      rfl
    rw [hEscape, unescape, hCode]

theorem unescape_flatMap {cs : List Char} (hAll : ∀ c ∈ cs, Escapable c)
    (hBackslash : '\\' ∉ cs) : unescape (cs.flatMap escape) = utf8 cs := by
  induction cs with
  | nil => rfl
  | cons c cs ih =>
    rw [List.mem_cons, not_or] at hBackslash
    rw [List.flatMap_cons, utf8_cons, unescape_escape (hAll c List.mem_cons_self)
      (Ne.symm hBackslash.1), ih (fun d hd => hAll d (List.mem_cons_of_mem _ hd)) hBackslash.2]

/-- `strtounicode` accepts the strings of characters of one and of three bytes, keeps the ones and
escapes the others; and without a backslash in it, the string can be read off its escaped form. -/
theorem strtounicode_faithful (cs : List Char) :
    ((strtounicode (utf8 cs)).isSome ↔
      ∀ c ∈ cs, c.toNat < 0x80 ∨ 0x800 ≤ c.toNat ∧ c.toNat ≤ 0xFFFF) ∧
    ∀ output, strtounicode (utf8 cs) = some output →
      output = cs.flatMap escape ∧
      ('\\' ∉ cs → unescape output = utf8 cs ∧
        ∀ cs', '\\' ∉ cs' → strtounicode (utf8 cs') = some output →
          utf8 cs' = utf8 cs) := by
  have hAccepted : ∀ {cs output}, strtounicode (utf8 cs) = some output →
      (∀ c ∈ cs, Escapable c) ∧ output = cs.flatMap escape := by
    intro cs output h
    rw [strtounicode_eq] at h
    split at h
    next hAll => exact ⟨by simpa using hAll, (Option.some.inj h).symm⟩
    next => cases h
  have hAllIff : cs.all (decide <| Escapable ·) = true ↔ ∀ c ∈ cs, Escapable c := by simp
  constructor
  · rw [strtounicode_eq]
    split
    next hAll => exact iff_of_true rfl (hAllIff.mp hAll)
    next hAll => exact iff_of_false (by simp) fun hEach => hAll (hAllIff.mpr hEach)
  · intro output h
    obtain ⟨hAll, rfl⟩ := hAccepted h
    refine ⟨rfl, fun hBackslash =>
      ⟨unescape_flatMap hAll hBackslash, fun cs' hBackslash' h' => ?_⟩⟩
    obtain ⟨hAll', hSame⟩ := hAccepted h'
    rw [← unescape_flatMap hAll hBackslash, hSame, unescape_flatMap hAll' hBackslash']

end Shutter.Rules
