import Mathlib.Data.Bool.AllAny
import Mathlib.Data.List.Basic
import Mathlib.Data.UInt

/-! Forms as text: a row of fields between `&`, each a name with a value behind `=` or without one.
A byte of a name or a value stands for itself, a space also as `+`, and every byte as `%` with two
hexadecimal digits of either case. -/

namespace Shutter.Library

/-- The value of a hexadecimal digit. -/
def hexValue (c : UInt8) : Option UInt8 :=
  if 48 ≤ c ∧ c ≤ 57 then some (c - 48)
  else if 65 ≤ c ∧ c ≤ 70 then some (c - 55)
  else if 97 ≤ c ∧ c ≤ 102 then some (c - 87)
  else none

/-- The bytes that end a name or a value: NUL, `#`, `&` and `=`. -/
def stops : List UInt8 := [0, 35, 38, 61]

/-- A byte that stands for itself: no `+`, no `%` and no stop. -/
def Plain (c : UInt8) : Prop := c ∉ stops ∧ c ≠ 43 ∧ c ≠ 37

instance (c : UInt8) : Decidable (Plain c) := inferInstanceAs (Decidable (_ ∧ _))

/-- The text stands for the bytes. -/
inductive Written : List UInt8 → List UInt8 → Prop
  | nil : Written [] []
  | plain {c : UInt8} {bytes text : List UInt8} (hPlain : Plain c) (rest : Written bytes text) :
      Written (c :: bytes) (c :: text)
  | space {bytes text : List UInt8} (rest : Written bytes text) :
      Written (32 :: bytes) (43 :: text)
  | escape {high low a b : UInt8} {bytes text : List UInt8} (hHigh : hexValue high = some a)
      (hLow : hexValue low = some b) (rest : Written bytes text) :
      Written ((a * 16 + b) :: bytes) (37 :: high :: low :: text)

/-- Bytes, and a text that stands for them. -/
structure Coded where
  bytes : List UInt8
  text : List UInt8
  written : Written bytes text

/-- A field of a form. -/
structure Field where
  name : Coded
  value : Option Coded

def Field.text (f : Field) : List UInt8 :=
  f.name.text ++ match f.value with
    | none => []
    | some value => 61 :: value.text

/-- The text of a form. -/
def formText : List Field → List UInt8
  | [] => []
  | [f] => f.text
  | f :: g :: fields => f.text ++ 38 :: formText (g :: fields)

/-! ### The texts -/

variable {bytes text : List UInt8} {c : UInt8}

theorem stops_not_hex : ∀ c ∈ stops, hexValue c = none :=
  List.all_iff_forall_prop.mp (by decide)

/-- No text of bytes has a stop. -/
theorem Written.no_stop (h : Written bytes text) : ∀ c ∈ text, c ∉ stops := by
  have hDigit {d a : UInt8} (hd : hexValue d = some a) : d ∉ stops := fun hMem => by
    rw [stops_not_hex d hMem] at hd
    cases hd
  induction h with
  | nil => exact fun c hc => absurd hc List.not_mem_nil
  | plain hPlain rest ih => exact List.forall_mem_cons.mpr ⟨hPlain.1, ih⟩
  | space rest ih => exact List.forall_mem_cons.mpr ⟨by decide, ih⟩
  | escape hHigh hLow rest ih =>
    exact List.forall_mem_cons.mpr ⟨by decide, List.forall_mem_cons.mpr ⟨hDigit hHigh,
      List.forall_mem_cons.mpr ⟨hDigit hLow, ih⟩⟩⟩

/-- Plain bytes stand for themselves. -/
theorem written_plain (h : ∀ c ∈ bytes, Plain c) : Written bytes bytes := by
  induction bytes with
  | nil => exact .nil
  | cons c bytes ih =>
    exact .plain (h c List.mem_cons_self) (ih fun d hd => h d (List.mem_cons_of_mem c hd))

/-- The text of a field has no `&`, no `#` and no NUL. -/
theorem Field.text_no_end (f : Field) {c : UInt8} (hc : c ∈ f.text) : c ≠ 0 ∧ c ≠ 35 ∧
    c ≠ 38 := by
  have hWritten {w : Coded} (h : c ∈ w.text) : c ≠ 0 ∧ c ≠ 35 ∧ c ≠ 38 := by
    have hNot := w.written.no_stop c h
    simp only [stops, List.mem_cons, List.not_mem_nil, or_false, not_or] at hNot
    exact ⟨hNot.1, hNot.2.1, hNot.2.2.1⟩
  unfold Field.text at hc
  rcases List.mem_append.mp hc with hName | hValue
  · exact hWritten hName
  · cases hf : f.value with
    | none => simp [hf] at hValue
    | some value =>
      simp only [hf, List.mem_cons] at hValue
      rcases hValue with rfl | hValue
      · decide
      · exact hWritten hValue

theorem formText_no_end {fields : List Field} {c : UInt8} (hc : c ∈ formText fields) :
    c ≠ 0 ∧ c ≠ 35 := by
  have hField {f : Field} (h : c ∈ f.text) : c ≠ 0 ∧ c ≠ 35 :=
    ⟨(f.text_no_end h).1, (f.text_no_end h).2.1⟩
  induction fields using formText.induct with
  | case1 => simp [formText] at hc
  | case2 f => exact hField hc
  | case3 f g fields ih =>
    rcases List.mem_append.mp hc with hc | hc
    · exact hField hc
    · rcases List.mem_cons.mp hc with rfl | hc
      · decide
      · exact ih hc

/-- The form `content=a+b&`, whose last field is empty. -/
def aSpaceB : List Field :=
  [{ name := ⟨[99, 111, 110, 116, 101, 110, 116], _,
      written_plain (List.all_iff_forall_prop.mp (by decide))⟩
     value := some ⟨[97, 32, 98], [97, 43, 98],
       .plain (by decide) (.space (.plain (by decide) .nil))⟩ },
    { name := ⟨[], [], .nil⟩, value := none }]

end Shutter.Library
