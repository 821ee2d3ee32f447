import Shutter.Http.Writes
import Shutter.Library.Form

/-! The query strings of `qs_parse.c`: the lookup of a value by its key, and the decoding of a value
in place.  A pointer is the memory from it on, and a function fails where it reads behind that. -/

namespace Shutter.Http

open Shutter.Library
open Shutter.Acsm (cstr cstr_eq cstr_block)

/-! ### The macros -/

/-- `ISQSCHR`. -/
def isQsChr (x : UInt8) : Bool := ¬(x = 61 ∨ x = 35 ∨ x = 38 ∨ x = 0)

/-- `ISHEX`. -/
def isHex (x : UInt8) : Bool := (48 ≤ x ∧ x ≤ 57) ∨ (65 ≤ x ∧ x ≤ 70) ∨
    (97 ≤ x ∧ x ≤ 102)

/-- `HEX2DEC`. -/
def hex2Dec (x : UInt8) : UInt8 :=
  if 48 ≤ x ∧ x ≤ 57 then x - 48
  else if 65 ≤ x ∧ x ≤ 70 then x - 55
  else if 97 ≤ x ∧ x ≤ 102 then x - 87
  else 0

/-! ### The string functions -/

/-- `strcspn`, which stops at the terminator too. -/
def strcspn (s reject : List UInt8) : Option Nat := s.findIdx? fun c => c = 0 ∨ c ∈ reject

/-- `strncpy(a, s, len)`: behind the terminator of `s` it writes zeros. -/
def strncpy {n : Nat} (a : Vector UInt8 n) (s : List UInt8) (len : Nat) : Option (Vector UInt8 n) :=
  let text := cstr (s.take len)
  if text.length < len ∧ text.length = s.length then none
  else memcpy a 0 (text ++ List.replicate (len - text.length) 0)

/-! ### Keys -/

/-- What `qs_strncmp` does to each of its strings: the next byte, and the string behind it. -/
def qsNext : List UInt8 → Option (UInt8 × List UInt8)
  | [] => none
  | c :: s =>
    if ¬isQsChr c then some (0, s)
    else if c = 43 then some (32, s)
    else if c = 37 then
      match s with
      | unyb :: lnyb :: s =>
        some (if isHex unyb ∧ isHex lnyb then hex2Dec unyb * 16 + hex2Dec lnyb else 0, s)
      | _ => none
    else some (c, s)

/-- `qs_strncmp`. -/
def qsStrncmp : Nat → List UInt8 → List UInt8 → Option Int
  | 0, _, qs => do
    let c ← qs.head?
    some (if isQsChr c then -1 else 0)
  | n + 1, s, qs => do
    let (u1, s) ← qsNext s
    let (u2, qs) ← qsNext qs
    if u1 ≠ u2 then some (u1.toNat - u2.toNat)
    else if u1 = 0 then some 0
    else qsStrncmp n s qs

/-! ### Values -/

/-- The loop of `qs_decode`, which reads at `j` and writes at `i`. -/
def qsDecodeLoop {n : Nat} (i j : Nat) (qs : Vector UInt8 n) : Option (Nat × Vector UInt8 n) :=
  if h : j < n then
    let c := qs[j]
    if ¬isQsChr c then some (i, write qs i [0])
    else if c = 43 then qsDecodeLoop (i + 1) (j + 1) (write qs i [32])
    else if c = 37 then do
      let high ← qs[j + 1]?
      if ¬isHex high then some (i, write qs i [0])
      else
        let low ← qs[j + 2]?
        if ¬isHex low then some (i, write qs i [0])
        else qsDecodeLoop (i + 1) (j + 3) (write qs i [hex2Dec high * 16 + hex2Dec low])
    else qsDecodeLoop (i + 1) (j + 1) (write qs i [c])
  else none
termination_by n - j

/-- `qs_decode`. -/
def qsDecode {n : Nat} (qs : Vector UInt8 n) : Option (Nat × Vector UInt8 n) := qsDecodeLoop 0 0 qs

/-! ### The lookup -/

/-- The beginning of the query string: behind the first `?`, if there is one. -/
def queryStart (qs : List UInt8) : Option (List UInt8) := do
  let i ← strcspn qs [63]
  some (if qs[i]? = some 63 then qs.drop (i + 1) else qs)

/-- The loop of `qs_scanvalue`. -/
def qsFind (key : List UInt8) : List UInt8 → Option (List UInt8)
  | [] => none
  | c :: s =>
    if c = 35 ∨ c = 0 then some (c :: s)
    else do
      let order ← qsStrncmp key.length (key ++ [0]) (c :: s)
      if order = 0 then some (c :: s)
      else
        let i ← strcspn (c :: s) [38]
        qsFind key (s.drop i)
termination_by qs => qs.length

/-- What `qs_scanvalue` does with the string at the key: the pointer that it returns is null or
`val`. -/
def takeValue {n : Nat} (qs : List UInt8) (val : Vector UInt8 n) :
    Option (Bool × Vector UInt8 n) := do
  if qs.head? = some 0 then some (false, val)
  else
    let skip ← strcspn qs [61, 38, 35]
    let qs := qs.drop skip
    if qs.head? = some 61 then
      let qs := qs.drop 1
      let i ← strcspn qs [38, 61, 35]
      -- with `val_len` 0 the bound `val_len - 1` is the largest `size_t`
      let val ← strncpy val qs (if n = 0 then i + 1 else min (n - 1) (i + 1))
      let (_, val) ← qsDecode val
      some (true, val)
    else some (true, if 0 < n then write val 0 [0] else val)

/-- `qs_scanvalue`. -/
def qsScanvalue {n : Nat} (key qs : List UInt8) (val : Vector UInt8 n) :
    Option (Bool × Vector UInt8 n) := do
  let qs ← queryStart qs
  let qs ← qsFind key qs
  takeValue qs val

/-! ### Bytes -/

variable {c : UInt8} {bytes text rest : List UInt8}

theorem isQsChr_iff : isQsChr c = true ↔ c ∉ stops := by
  simp only [isQsChr, stops, decide_eq_true_eq, List.mem_cons, List.not_mem_nil, or_false]
  tauto

theorem isQsChr_of_stop (h : c ∈ stops) : isQsChr c = false := by
  rw [Bool.eq_false_iff, ne_eq, isQsChr_iff]
  exact not_not.mpr h

theorem isHex_of_hexValue {a : UInt8} (h : hexValue c = some a) : isHex c = true ∧
    hex2Dec c = a := by
  unfold hexValue at h
  unfold isHex hex2Dec
  split_ifs at h ⊢ <;> simp_all

/-! ### Decoding -/

/-- What `qs_decode` makes of a string. -/
def qsDecoded : List UInt8 → Option (List UInt8)
  | [] => none
  | c :: s =>
    if ¬isQsChr c then some []
    else if c = 43 then (qsDecoded s).map (32 :: ·)
    else if c = 37 then
      match s with
      | [] => none
      | high :: s =>
        if ¬isHex high then some []
        else
          match s with
          | [] => none
          | low :: s =>
            if ¬isHex low then some []
            else (qsDecoded s).map ((hex2Dec high * 16 + hex2Dec low) :: ·)
    else (qsDecoded s).map (c :: ·)

section Decode

variable {n i j : Nat} {a : Vector UInt8 n}

theorem write_behind (a : Vector UInt8 n) (i : Nat) (x : UInt8) (ys : List UInt8) :
    write (write a i [x]) (i + 1) ys = write a i (x :: ys) := by
  ext k hk
  rw [write_getElem _ _ _ hk, write_getElem _ _ _ hk, write_getElem _ _ _ hk]
  rcases Nat.lt_trichotomy k i with hLt | rfl | hGt
  · rw [if_neg (by omega), if_neg (by omega), if_neg (by omega)]
  · rw [if_neg (by omega), if_pos le_rfl, if_pos le_rfl, Nat.sub_self]
    rfl
  · obtain ⟨d, rfl⟩ := Nat.exists_eq_add_of_lt hGt
    rw [if_pos (by omega), if_pos (by omega), if_pos (by omega),
      show i + d + 1 - i = d + 1 by omega,
      show i + d + 1 - (i + 1) = d by omega, List.getElem?_cons_succ, List.getElem?_cons_succ]
    rfl

theorem toList_drop_write (h : i < j) (x : UInt8) :
    (write a i [x]).toList.drop j = a.toList.drop j := by
  apply List.ext_getElem
  · simp
  · intro k hk hk'
    simp only [List.length_drop, Vector.length_toList] at hk
    rw [List.getElem_drop, List.getElem_drop, Vector.getElem_toList, Vector.getElem_toList,
      write_getElem _ _ _ (by omega), if_pos (by omega), List.getElem?_eq_none (by simp; omega)]
    rfl

theorem drop_eq_getElem?_cons (a : Vector UInt8 n) (j : Nat) :
    a.toList.drop j = match a[j]? with
      | none => []
      | some c => c :: a.toList.drop (j + 1) := by
  by_cases hj : j < n
  · rw [List.drop_eq_getElem_cons (by simpa using hj), Vector.getElem_toList,
      Vector.getElem?_eq_getElem hj]
  · rw [Vector.getElem?_eq_none (by omega), List.drop_eq_nil_of_le (by simp; omega)]

/-- One round of the loop behind a byte that it has written. -/
theorem qsDecodeLoop_next {j' : Nat} (hij : i ≤ j) (hj : j < j') (x : UInt8)
    (ih : qsDecodeLoop (i + 1) j' (write a i [x]) =
      (qsDecoded ((write a i [x]).toList.drop j')).map fun bytes =>
        (i + 1 + bytes.length, write (write a i [x]) (i + 1) (bytes ++ [0]))) :
    qsDecodeLoop (i + 1) j' (write a i [x]) =
      ((qsDecoded (a.toList.drop j')).map (x :: ·)).map fun bytes =>
        (i + bytes.length, write a i (bytes ++ [0])) := by
  rw [ih, toList_drop_write (by omega), Option.map_map]
  congr 1
  funext bytes
  simp only [write_behind, Function.comp_apply, List.length_cons, List.cons_append]
  congr 1
  omega

/-- The bytes that `qs_decode` has still to read are those of the string: it writes behind none of
them. -/
theorem qsDecodeLoop_eq (h : i ≤ j) : qsDecodeLoop i j a =
    (qsDecoded (a.toList.drop j)).map fun bytes =>
    (i + bytes.length, write a i (bytes ++ [0])) := by
  induction hLeft : n - j using Nat.strong_induction_on generalizing i j a with
  | _ left ih =>
    rw [qsDecodeLoop, drop_eq_getElem?_cons]
    split
    next hj =>
      have hNext {j' : Nat} (hj' : j < j') (x : UInt8) := qsDecodeLoop_next h hj' x
        (ih (n - j') (by omega) (i := i + 1) (a := write a i [x]) (by omega) rfl)
      simp only [Vector.getElem?_eq_getElem hj]
      rw [qsDecoded.eq_def]
      simp only
      split
      · rfl
      split
      · exact hNext (Nat.lt_succ_self j) 32
      split
      · rw [drop_eq_getElem?_cons a (j + 1)]
        cases a[j + 1]? with
        | none => rfl
        | some high =>
          simp only [Option.bind_eq_bind, Option.bind_some]
          split
          · rfl
          rw [drop_eq_getElem?_cons a (j + 2)]
          cases a[j + 2]? with
          | none => rfl
          | some low =>
            simp only [Option.bind_some]
            split
            · rfl
            · exact hNext (by omega) _
      · exact hNext (Nat.lt_succ_self j) _
    next hj =>
      rw [Vector.getElem?_eq_none (by omega)]
      rfl

end Decode

@[simp] theorem qsDecoded_stop (h : c ∈ stops) (s : List UInt8) :
    qsDecoded (c :: s) = some [] := by
  rw [qsDecoded.eq_def]
  simp [isQsChr_of_stop h]

theorem qsDecoded_plain (h : Plain c) (s : List UInt8) :
    qsDecoded (c :: s) = (qsDecoded s).map (c :: ·) := by
  obtain ⟨hStop, hPlus, hPercent⟩ := h
  rw [qsDecoded.eq_def]
  simp [isQsChr_iff.mpr hStop, hPlus, hPercent]

theorem qsDecoded_space (s : List UInt8) : qsDecoded (43 :: s) = (qsDecoded s).map (32 :: ·) := by
  rw [qsDecoded.eq_def]
  simp [isQsChr_iff.mpr (by decide : (43 : UInt8) ∉ stops)]

theorem qsDecoded_escape {high low x y : UInt8} (hHigh : hexValue high = some x)
    (hLow : hexValue low = some y) (s : List UInt8) :
    qsDecoded (37 :: high :: low :: s) = (qsDecoded s).map ((x * 16 + y) :: ·) := by
  obtain ⟨hIsHigh, rfl⟩ := isHex_of_hexValue hHigh
  obtain ⟨hIsLow, rfl⟩ := isHex_of_hexValue hLow
  rw [qsDecoded.eq_def]
  simp [isQsChr_iff.mpr (by decide : (37 : UInt8) ∉ stops), hIsHigh, hIsLow]

/-- A text that stands for bytes is decoded to them, up to the stop behind it. -/
theorem qsDecoded_written (h : Written bytes text) (hStop : c ∈ stops) (rest : List UInt8) :
    qsDecoded (text ++ c :: rest) = some bytes := by
  induction h with
  | nil => exact qsDecoded_stop hStop rest
  | plain hPlain _ ih => rw [List.cons_append, qsDecoded_plain hPlain, ih, Option.map_some]
  | space _ ih => rw [List.cons_append, qsDecoded_space, ih, Option.map_some]
  | escape hHigh hLow _ ih =>
    rw [List.cons_append, List.cons_append, List.cons_append, qsDecoded_escape hHigh hLow, ih,
      Option.map_some]

/-- A text that is cut is decoded to the first of its bytes, also where the cut is in an escape. -/
theorem qsDecoded_cut (h : Written bytes text) (k : Nat) (rest : List UInt8) :
    ∃ m, qsDecoded (text.take k ++ 0 :: rest) = some (bytes.take m) := by
  have hZero : (0 : UInt8) ∈ stops := by decide
  induction h generalizing k with
  | nil => exact ⟨0, by simp [qsDecoded_stop hZero]⟩
  | plain hPlain _ ih =>
    cases k with
    | zero => exact ⟨0, by simp [qsDecoded_stop hZero]⟩
    | succ k =>
      obtain ⟨m, hm⟩ := ih k
      exact ⟨m + 1, by rw [List.take_succ_cons, List.cons_append,
        qsDecoded_plain hPlain, hm]; rfl⟩
  | space _ ih =>
    cases k with
    | zero => exact ⟨0, by simp [qsDecoded_stop hZero]⟩
    | succ k =>
      obtain ⟨m, hm⟩ := ih k
      exact ⟨m + 1, by rw [List.take_succ_cons, List.cons_append, qsDecoded_space, hm]; rfl⟩
  | escape hHigh hLow _ ih =>
    have hPercent := isQsChr_iff.mpr (by decide : (37 : UInt8) ∉ stops)
    match k with
    | 0 => exact ⟨0, by simp [qsDecoded_stop hZero]⟩
    | 1 => exact ⟨0, by rw [qsDecoded.eq_def]; simp [hPercent, isHex]⟩
    | 2 => exact ⟨0, by rw [qsDecoded.eq_def]; simp [hPercent, isHex]⟩
    | k + 3 =>
      obtain ⟨m, hm⟩ := ih k
      refine ⟨m + 1, ?_⟩
      rw [List.take_succ_cons, List.take_succ_cons, List.take_succ_cons, List.cons_append,
        List.cons_append, List.cons_append, qsDecoded_escape hHigh hLow, hm]
      rfl

/-! ### Comparing -/

theorem qsNext_plain (h : Plain c) (s : List UInt8) : qsNext (c :: s) = some (c, s) := by
  obtain ⟨hStop, hPlus, hPercent⟩ := h
  simp [qsNext, isQsChr_iff.mpr hStop, hPlus, hPercent]

theorem qsNext_stop (h : c ∈ stops) (s : List UInt8) : qsNext (c :: s) = some (0, s) := by
  simp [qsNext, isQsChr_of_stop h]

theorem qsNext_space (s : List UInt8) : qsNext (43 :: s) = some (32, s) := by
  simp [qsNext, isQsChr_iff.mpr (by decide : (43 : UInt8) ∉ stops)]

theorem qsNext_escape {high low x y : UInt8} (hHigh : hexValue high = some x)
    (hLow : hexValue low = some y) (s : List UInt8) :
    qsNext (37 :: high :: low :: s) = some (x * 16 + y, s) := by
  obtain ⟨hIsHigh, rfl⟩ := isHex_of_hexValue hHigh
  obtain ⟨hIsLow, rfl⟩ := isHex_of_hexValue hLow
  simp [qsNext, isQsChr_iff.mpr (by decide : (37 : UInt8) ∉ stops), hIsHigh, hIsLow]

/-- A text gives its first byte. -/
theorem qsNext_written {b : UInt8} (h : Written (b :: bytes) text) : ∃ text',
    Written bytes text' ∧
    ∀ rest, qsNext (text ++ rest) = some (b, text' ++ rest) := by
  cases h with
  | plain hPlain hRest => exact ⟨_, hRest, fun rest => qsNext_plain hPlain _⟩
  | space hRest => exact ⟨_, hRest, fun rest => qsNext_space _⟩
  | escape hHigh hLow hRest => exact ⟨_, hRest, fun rest => qsNext_escape hHigh hLow _⟩

/-- The comparison of a plain key with a name and the stop behind it. -/
theorem qsStrncmp_written {key : List UInt8} (hKey : ∀ k ∈ key, Plain k)
    (h : Written bytes text) (hStop : c ∈ stops) (rest : List UInt8) : ∃ order,
      qsStrncmp key.length (key ++ [0]) (text ++ c :: rest) = some order ∧
        (order = 0 ↔ key = bytes) := by
  induction key generalizing bytes text with
  | nil =>
    cases h with
    | nil => exact ⟨0, by simp [qsStrncmp, isQsChr_of_stop hStop], by simp⟩
    | plain hPlain _ => exact ⟨-1, by simp [qsStrncmp, isQsChr_iff.mpr hPlain.1], by simp⟩
    | space _ => exact ⟨-1, by simp [qsStrncmp, isQsChr], by simp⟩
    | escape _ _ _ => exact ⟨-1, by simp [qsStrncmp, isQsChr], by simp⟩
  | cons k key ih =>
    obtain ⟨hPlain, hKey⟩ := List.forall_mem_cons.mp hKey
    have hZero : k ≠ 0 := fun heq => hPlain.1 (heq ▸ by decide)
    have hDiffer {u : UInt8} (hu : k ≠ u) : (k.toNat : Int) - u.toNat ≠ 0 := fun hSub =>
      hu (UInt8.toNat_inj.mp (by omega))
    rw [List.length_cons, List.cons_append, qsStrncmp, qsNext_plain hPlain]
    simp only [Option.bind_eq_bind, Option.bind_some]
    cases bytes with
    | nil =>
      cases h
      rw [List.nil_append, qsNext_stop hStop, Option.bind_some, if_pos hZero]
      exact ⟨_, rfl, iff_of_false (hDiffer hZero) (by simp)⟩
    | cons b bytes =>
      obtain ⟨text', hRest, hNext⟩ := qsNext_written h
      rw [hNext, Option.bind_some]
      by_cases hSame : k = b
      · obtain ⟨order, hOrder, hIff⟩ := ih hKey hRest
        rw [if_neg (not_not.mpr hSame), if_neg hZero]
        exact ⟨order, hOrder, hIff.trans (by simp [hSame])⟩
      · rw [if_pos hSame]
        exact ⟨_, rfl, iff_of_false (hDiffer hSame) (by simp [hSame])⟩

/-! ### Looking for a key -/

theorem strcspn_append (reject : List UInt8) {s : List UInt8}
    (hs : ∀ b ∈ s, b ≠ 0 ∧ b ∉ reject) (hc : c = 0 ∨ c ∈ reject)
    (rest : List UInt8) : strcspn (s ++ c :: rest) reject = some s.length := by
  unfold strcspn
  rw [List.findIdx?_append, List.findIdx?_eq_none_iff.mpr fun b hb => by simpa using hs b hb,
    List.findIdx?_cons, if_pos (by simpa using hc)]
  simp

/-- Where the text of a field is empty, or does not begin with a byte that ends the loop. -/
theorem head?_text_append {f : Field} (hEmpty : f.text ≠ [] ∨ c = 38) (rest : List UInt8) :
    ∃ d s, f.text ++ c :: rest = d :: s ∧ ¬(d = 35 ∨ d = 0) := by
  cases hText : f.text with
  | nil => exact ⟨c, rest, rfl, by rw [hEmpty.resolve_left (not_not.mpr hText)]; decide⟩
  | cons d s =>
    have hEnd := f.text_no_end (c := d) (by rw [hText]; exact List.mem_cons_self)
    exact ⟨d, s ++ c :: rest, rfl, not_or.mpr ⟨hEnd.2.1, hEnd.1⟩⟩

/-- The name of a field is a text with a stop behind it. -/
theorem text_append (f : Field) (hc : c ∈ stops) (rest : List UInt8) :
    ∃ d ∈ stops, ∃ s, f.text ++ c :: rest = f.name.text ++ d :: s := by
  unfold Field.text
  cases f.value with
  | none => exact ⟨c, hc, rest, by rw [List.append_nil]⟩
  | some value => exact ⟨61, by decide, value.text ++ c :: rest, by simp⟩

theorem text_ne_nil {f : Field} (h : f.name.bytes ≠ []) : f.text ≠ [] := by
  intro hNil
  obtain ⟨hName, -⟩ := List.append_eq_nil_iff.mp hNil
  have hWritten := f.name.written
  rw [hName] at hWritten
  cases hBytes : f.name.bytes with
  | nil => exact h hBytes
  | cons b bytes =>
    rw [hBytes] at hWritten
    cases hWritten

/-- The loop at a field: it stops at the key, and goes on behind the next `&` or the terminator. -/
theorem qsFind_field {key : List UInt8} (hKey : ∀ k ∈ key, Plain k) (f : Field)
    (hEmpty : f.text ≠ [] ∨ c = 38) (hc : c = 0 ∨ c = 38) (rest : List UInt8) :
    qsFind key (f.text ++ c :: rest) =
      if f.name.bytes = key then some (f.text ++ c :: rest) else qsFind key rest := by
  have hStop : c ∈ stops := by rcases hc with rfl | rfl <;> decide
  have hSkip : strcspn (f.text ++ c :: rest) [38] = some f.text.length := by
    refine strcspn_append [38] (fun b hb => ?_) (by simpa using hc) rest
    have hEnd := f.text_no_end hb
    exact ⟨hEnd.1, by simpa using hEnd.2.2⟩
  obtain ⟨order, hOrder, hIff⟩ : ∃ order,
      qsStrncmp key.length (key ++ [0]) (f.text ++ c :: rest) = some order ∧
        (order = 0 ↔ key = f.name.bytes) := by
    obtain ⟨d, hd, s, hText⟩ := text_append f hStop rest
    rw [hText]
    exact qsStrncmp_written hKey f.name.written hd s
  have hDrop : (f.text ++ c :: rest).drop (f.text.length + 1) = rest := by
    rw [← List.drop_drop, List.drop_left, List.drop_succ_cons, List.drop_zero]
  obtain ⟨d, s, hHead, hGo⟩ := head?_text_append hEmpty rest
  rw [hHead] at hSkip hOrder hDrop ⊢
  rw [qsFind, if_neg hGo, hOrder, Option.bind_eq_bind, Option.bind_some, hSkip]
  by_cases hSame : f.name.bytes = key
  · rw [if_pos hSame, if_pos (hIff.mpr hSame.symm)]
  · rw [if_neg hSame, if_neg (mt hIff.mp (Ne.symm hSame)), Option.bind_eq_bind, Option.bind_some,
      ← List.drop_succ_cons, hDrop]

/-- The first field with the name. -/
def lookup (key : List UInt8) (fields : List Field) : Option Field :=
  fields.find? fun f => f.name.bytes = key

/-- The form is empty, or ends with an empty field, behind the last `&`. -/
def Ended (fields : List Field) : Prop := ∀ f ∈ fields.getLast?, f.text = []

instance (fields : List Field) : Decidable (Ended fields) :=
  inferInstanceAs (Decidable (∀ f ∈ fields.getLast?, f.text = []))

section Form

variable {key : List UInt8} {fields : List Field}

/-- The loop on a form: it stops at the first field with the name. -/
theorem qsFind_of_lookup (hKey : ∀ k ∈ key, Plain k) (hNonempty : key ≠ []) {f : Field}
    (hFound : lookup key fields = some f) (behind : List UInt8) : f.text ≠ [] ∧
      ∃ c rest, (c = 0 ∨ c = 38) ∧
        qsFind key (formText fields ++ 0 :: behind) = some (f.text ++ c :: rest) := by
  induction fields with
  | nil => cases hFound
  | cons g fields ih =>
    rw [lookup, List.find?_cons] at hFound
    by_cases hName : g.name.bytes = key
    · rw [decide_eq_true hName] at hFound
      obtain rfl := Option.some.inj hFound
      have hText : g.text ≠ [] := text_ne_nil (hName ▸ hNonempty)
      cases fields with
      | nil =>
        refine ⟨hText, 0, behind, .inl rfl, ?_⟩
        rw [formText, qsFind_field hKey g (.inl hText) (.inl rfl), if_pos hName]
      | cons h fields =>
        refine ⟨hText, 38, formText (h :: fields) ++ 0 :: behind, .inr rfl, ?_⟩
        rw [formText, List.append_assoc, List.cons_append,
          qsFind_field hKey g (.inr rfl) (.inr rfl),
          if_pos hName]
    · rw [decide_eq_false hName] at hFound
      obtain ⟨hText, c, rest, hc, hFind⟩ := ih hFound
      cases fields with
      | nil => cases hFound
      | cons h fields =>
        refine ⟨hText, c, rest, hc, ?_⟩
        rw [formText, List.append_assoc, List.cons_append,
          qsFind_field hKey g (.inr rfl) (.inr rfl),
          if_neg hName, hFind]

/-- A key that the form does not have is looked for behind its terminator, unless the form ends with
an empty field. -/
theorem qsFind_of_lookup_none (hKey : ∀ k ∈ key, Plain k) (hNone : lookup key fields = none)
    (behind : List UInt8) : qsFind key (formText fields ++ 0 :: behind) =
      if Ended fields then some (0 :: behind) else qsFind key behind := by
  have hStop : qsFind key (0 :: behind) = some (0 :: behind) := by
    rw [qsFind, if_pos (.inr rfl)]
  induction fields with
  | nil => rw [if_pos (by simp [Ended]), formText, List.nil_append, hStop]
  | cons g fields ih =>
    rw [lookup, List.find?_cons] at hNone
    by_cases hName : g.name.bytes = key
    · rw [decide_eq_true hName] at hNone
      cases hNone
    rw [decide_eq_false hName] at hNone
    cases fields with
    | nil =>
      by_cases hEmpty : g.text = []
      · rw [if_pos (by simp [Ended, hEmpty]), formText, hEmpty, List.nil_append, hStop]
      · rw [if_neg (by simp [Ended, hEmpty]), formText,
          qsFind_field hKey g (.inl hEmpty) (.inl rfl),
          if_neg hName]
    | cons h fields =>
      have hEnded : Ended (g :: h :: fields) ↔ Ended (h :: fields) := by simp [Ended]
      rw [formText, List.append_assoc, List.cons_append, qsFind_field hKey g (.inr rfl) (.inr rfl),
        if_neg hName, ih hNone]
      simp only [hEnded]

end Form

/-! ### Taking the value -/

section Value

variable {n : Nat} {val : Vector UInt8 n}

/-- The array begins with the string and its terminator. -/
def Holds (a : Vector UInt8 n) (s : List UInt8) : Prop := s ++ [0] <+: a.toList

/-- The array ends with a zero, so that every string in it is terminated. -/
def Closed (a : Vector UInt8 n) : Prop := a[n - 1]? = some 0

instance (a : Vector UInt8 n) : Decidable (Closed a) :=
  inferInstanceAs (Decidable (a[n - 1]? = some 0))

theorem toList_write (a : Vector UInt8 n) {bytes : List UInt8} (h : bytes.length ≤ n) :
    (write a 0 bytes).toList = bytes ++ a.toList.drop bytes.length := by
  apply List.ext_getElem
  · simp only [Vector.length_toList, List.length_append, List.length_drop]
    omega
  · intro k hk hk'
    rw [Vector.length_toList] at hk
    rw [Vector.getElem_toList, write_getElem _ _ _ hk, if_pos (Nat.zero_le k), Nat.sub_zero,
      List.getElem_append]
    split
    next hLt => rw [List.getElem?_eq_getElem hLt, Option.getD_some]
    next hGe =>
      rw [List.getElem?_eq_none (by omega), Option.getD_none, List.getElem_drop,
        Vector.getElem_toList]
      congr 1
      omega

/-- What `strncpy` writes of a text up to the stop behind it. -/
theorem strncpy_text (a : Vector UInt8 n) {len : Nat} (hText : 0 ∉ text)
    (hLen : len ≤ text.length + 1) (hn : len ≤ n) (rest : List UInt8) :
    strncpy a (text ++ c :: rest) len = some (write a 0 ((text ++ [c]).take len)) := by
  have hTake : (text ++ c :: rest).take len = (text ++ [c]).take len := by
    rw [← List.singleton_append, ← List.append_assoc,
      List.take_append_of_le_length (by simpa using hLen)]
  have hWhole : ∀ k, cstr (text.take k) = text.take k := fun k =>
    cstr_eq fun hMem => hText (List.mem_of_mem_take hMem)
  suffices hCopied : ∃ s, s = cstr ((text ++ [c]).take len) ∧
      ¬(s.length < len ∧ s.length = (text ++ c :: rest).length) ∧
      s ++ List.replicate (len - s.length) 0 = (text ++ [c]).take len by
    obtain ⟨s, hs, hInside, hEq⟩ := hCopied
    unfold strncpy
    simp only [hTake, ← hs]
    rw [if_neg hInside, hEq, memcpy_eq]
    rw [Nat.zero_add, List.length_take]
    omega
  refine ⟨_, rfl, ?_⟩
  rcases Nat.lt_or_eq_of_le hLen with hShort | rfl
  · rw [List.take_append_of_le_length (by omega), hWhole, List.length_take]
    refine ⟨by simp; omega, ?_⟩
    rw [Nat.min_eq_left (by omega), Nat.sub_self, List.replicate_zero, List.append_nil]
  · rw [List.take_of_length_le (by simp)]
    by_cases hc : c = 0
    · subst hc
      rw [cstr_block hText]
      simp
    · rw [cstr_eq (by simp [hText, Ne.symm hc])]
      simp

/-- What `qs_scanvalue` leaves in an array from a field: the value where its text has room, and the
beginning of the value where it has not. -/
def Taken (f : Field) (a : Vector UInt8 n) : Prop :=
  match f.value with
  | none => Holds a []
  | some value => ∃ s, s <+: value.bytes ∧ Holds a s ∧
      (value.text.length + 2 ≤ n → s = value.bytes)

theorem length_qsDecoded {s bytes : List UInt8} (h : qsDecoded s = some bytes) :
    bytes.length < s.length := by
  have hMap {t bytes : List UInt8} {x : UInt8} (ih : ∀ {bytes}, qsDecoded t = some bytes →
      bytes.length < t.length) (hMap : (qsDecoded t).map (x :: ·) = some bytes) :
      bytes.length < t.length + 1 := by
    obtain ⟨bytes', hBytes, rfl⟩ := Option.map_eq_some_iff.mp hMap
    exact Nat.succ_lt_succ (ih hBytes)
  fun_induction qsDecoded s generalizing bytes with
  | case1 => cases h
  | case2 => cases h; simp
  | case3 _ _ ih => exact hMap ih h
  | case4 => cases h
  | case5 => cases h; simp
  | case6 => cases h
  | case7 => cases h; simp
  | case8 _ _ _ _ _ _ _ ih => exact (hMap ih h).trans (by simp)
  | case9 _ s _ _ _ ih => exact hMap ih h

theorem closed_write (h : Closed val) {i : Nat} {bytes : List UInt8}
    (hShort : i + bytes.length < n) :
    Closed (write val i bytes) := by
  obtain ⟨hSize, hLast⟩ := Vector.getElem?_eq_some_iff.mp h
  rw [Closed, Vector.getElem?_eq_getElem hSize, write_getElem _ _ _ hSize,
    List.getElem?_eq_none (by omega), Option.getD_none, hLast, ite_self]

/-- A string and its terminator. -/
theorem closed_write_string (h : Closed val) {i : Nat} {s : List UInt8}
    (hShort : i + s.length < n) :
    Closed (write val i (s ++ [0])) := by
  by_cases hFull : i + s.length = n - 1
  · rw [Closed, Vector.getElem?_eq_getElem (by omega), write_getElem _ _ _ (by omega),
      if_pos (by omega), show n - 1 - i = s.length by omega, List.getElem?_concat_length]
    rfl
  · exact closed_write h (by simp; omega)

/-- What is left behind a decoded text. -/
theorem qsDecode_write (hVal : Closed val) {w bytes : List UInt8} (hw : w.length < n)
    (hDecoded : qsDecoded (w ++ val.toList.drop w.length) = some bytes) : ∃ val',
      qsDecode (write val 0 w) = some (bytes.length, val') ∧ Closed val' ∧
        Holds val' bytes := by
  have hLength := length_qsDecoded hDecoded
  rw [List.length_append, List.length_drop, Vector.length_toList] at hLength
  refine ⟨write (write val 0 w) 0 (bytes ++ [0]), ?_, ?_, ?_⟩
  · rw [qsDecode, qsDecodeLoop_eq le_rfl, List.drop_zero, toList_write val hw.le, hDecoded,
      Option.map_some, Nat.zero_add]
  · exact closed_write_string (closed_write hVal (by omega)) (by omega)
  · rw [Holds, toList_write _ (by simp; omega)]
    exact List.prefix_append _ _

/-- A text is copied and decoded, up to its end or to the end of the array. -/
theorem copy_decode (hVal : Closed val) (value : Coded) (hc : c ∈ stops) (rest : List UInt8) :
    ∃ w val', strncpy val (value.text ++ c :: rest) (min (n - 1) (value.text.length + 1)) =
      some w ∧
      (qsDecode w).map Prod.snd = some val' ∧ Closed val' ∧ ∃ s, s <+: value.bytes ∧
        Holds val' s ∧ (value.text.length + 2 ≤ n → s = value.bytes) := by
  have hZero : (0 : UInt8) ∉ value.text := fun hMem => value.written.no_stop 0 hMem (by decide)
  obtain ⟨hSize, hLast⟩ := Vector.getElem?_eq_some_iff.mp hVal
  by_cases hRoom : value.text.length + 2 ≤ n
  · have hDecoded := qsDecoded_written value.written hc (val.toList.drop (value.text.length + 1))
    obtain ⟨val', hRun, hClosed, hHolds⟩ :=
      qsDecode_write hVal (w := value.text ++ [c]) (by simp; omega)
      (by simpa using hDecoded)
    refine ⟨_, val', strncpy_text val hZero (by omega) (by omega) rest, ?_, hClosed, _,
      List.prefix_rfl, hHolds, fun _ => rfl⟩
    rw [Nat.min_eq_right (by omega), List.take_of_length_le (by simp), hRun, Option.map_some]
  · obtain ⟨m, hDecoded⟩ := qsDecoded_cut value.written (n - 1) []
    have hTake : (value.text ++ [c]).take (n - 1) = value.text.take (n - 1) :=
      List.take_append_of_le_length (by omega)
    have hLength : (value.text.take (n - 1)).length = n - 1 := by
      rw [List.length_take]
      omega
    have hEnd : val.toList.drop (n - 1) = [0] := by
      rw [List.drop_eq_getElem_cons (by simpa using hSize), Vector.getElem_toList, hLast,
        List.drop_eq_nil_of_le (by simp; omega)]
    obtain ⟨val', hRun, hClosed, hHolds⟩ := qsDecode_write hVal (w := value.text.take (n - 1))
      (by omega) (by rw [hLength, hEnd]; exact hDecoded)
    refine ⟨_, val', strncpy_text val hZero (by omega) (by omega) rest, ?_, hClosed, _,
      List.take_prefix m value.bytes, hHolds, fun h => absurd h hRoom⟩
    rw [Nat.min_eq_left (by omega), hTake, hRun, Option.map_some]

/-- What `qs_scanvalue` does at a field. -/
theorem takeValue_field (hVal : Closed val) {f : Field} (hText : f.text ≠ [])
    (hc : c = 0 ∨ c = 38) (rest : List UInt8) : ∃ val', takeValue (f.text ++ c :: rest) val =
    some (true, val') ∧
      Closed val' ∧ Taken f val' := by
  obtain ⟨hSize, hLast⟩ := Vector.getElem?_eq_some_iff.mp hVal
  have hHead : (f.text ++ c :: rest).head? ≠ some 0 := by
    obtain ⟨d, s, hEq, hGo⟩ := head?_text_append (c := c) (.inl hText) rest
    rw [hEq, List.head?_cons, ne_eq, Option.some.injEq]
    exact fun hd => hGo (.inr hd)
  have hName : ∀ b ∈ f.name.text, b ≠ 0 ∧ b ∉ [61, 38, 35] := fun b hb => by
    have hStop := f.name.written.no_stop b hb
    simp only [stops, List.mem_cons, List.not_mem_nil, or_false, not_or] at hStop ⊢
    tauto
  unfold takeValue Taken
  rw [if_neg hHead, Field.text]
  cases f.value with
  | none =>
    have hSkip := strcspn_append [61, 38, 35] hName
      (by rcases hc with rfl | rfl <;> decide : c = 0 ∨ c ∈ _) rest
    have hNo : (c :: rest).head? ≠ some 61 := by rcases hc with rfl | rfl <;> simp
    simp only [List.append_nil, hSkip, Option.bind_eq_bind, Option.bind_some, List.drop_left]
    rw [if_neg hNo, if_pos (by omega)]
    refine ⟨_, rfl, closed_write_string hVal (s := []) (by simp; omega), ?_⟩
    rw [Holds, toList_write val (by simp; omega)]
    exact List.prefix_append _ _
  | some value =>
    have hSkip := strcspn_append [61, 38, 35] hName (by decide : (61 : UInt8) = 0 ∨ _)
      (value.text ++ c :: rest)
    have hStop : strcspn (value.text ++ c :: rest) [38, 61, 35] = some value.text.length := by
      refine strcspn_append _ (fun b hb => ?_) (by rcases hc with rfl | rfl <;> decide) rest
      have hStop := value.written.no_stop b hb
      simp only [stops, List.mem_cons, List.not_mem_nil, or_false, not_or] at hStop ⊢
      tauto
    obtain ⟨w, val', hCopy, hDecode, hClosed, hTaken⟩ := copy_decode hVal value
      (by rcases hc with rfl | rfl <;> decide : c ∈ stops) rest
    obtain ⟨⟨i, val''⟩, hRun, rfl⟩ := Option.map_eq_some_iff.mp hDecode
    simp only [List.append_assoc, List.cons_append, hSkip, Option.bind_eq_bind, Option.bind_some,
      List.drop_left, List.head?_cons, if_true, List.drop_succ_cons, List.drop_zero, hStop]
    rw [if_neg (by omega), hCopy, Option.bind_some, hRun]
    exact ⟨val'', rfl, hClosed, hTaken⟩

/-- The form begins where the query string does: behind the first `?` of what is before it, or at
the start when there is no `?` at all. -/
def Begins (before : List UInt8) (fields : List Field) : Prop :=
  (before = [] ∧ 63 ∉ formText fields) ∨ ∃ path, before = path ++ [63] ∧
    0 ∉ path ∧ 63 ∉ path

theorem queryStart_form {before : List UInt8} {fields : List Field} (h : Begins before fields)
    (behind : List UInt8) :
    queryStart (before ++ formText fields ++ 0 :: behind) =
      some (formText fields ++ 0 :: behind) := by
  unfold queryStart
  rcases h with ⟨rfl, hNo⟩ | ⟨path, rfl, hZero, hNo⟩
  · rw [List.nil_append, strcspn_append _ (fun b hb =>
      ⟨(formText_no_end hb).1, fun hMem => ?_⟩) (.inl rfl)]
    · simp
    · rw [List.mem_singleton.mp hMem] at hb
      exact hNo hb
  · rw [List.append_assoc, List.append_assoc, List.singleton_append,
      strcspn_append _ (fun b hb => ⟨fun heq => hZero (heq ▸ hb), fun hMem => ?_⟩)
        (.inr (by decide))]
    · simp
    · rw [List.mem_singleton.mp hMem] at hb
      exact hNo hb

/-- `qs_scanvalue` on a form with its terminator takes the value of the first field with the name.
Without one it looks for the key behind the terminator, unless the form ends with an empty field. -/
theorem qsScanvalue_form {key : List UInt8} (hKey : ∀ k ∈ key, Plain k) (hNonempty : key ≠ [])
    {before : List UInt8} {fields : List Field} (hBegins : Begins before fields) (hVal : Closed val)
    (behind : List UInt8) :
    match lookup key fields with
    | some f => ∃ val', Closed val' ∧ Taken f val' ∧
        qsScanvalue key (before ++ formText fields ++ 0 :: behind) val = some (true, val')
    | none => qsScanvalue key (before ++ formText fields ++ 0 :: behind) val =
        if Ended fields then some (false, val) else (qsFind key behind).bind
          (takeValue · val) := by
  rw [qsScanvalue, queryStart_form hBegins, Option.bind_eq_bind, Option.bind_some]
  cases hFound : lookup key fields with
  | some f =>
    obtain ⟨hText, c, rest, hc, hFind⟩ := qsFind_of_lookup hKey hNonempty hFound behind
    obtain ⟨val', hTake, hClosed, hTaken⟩ := takeValue_field hVal hText hc rest
    exact ⟨val', hClosed, hTaken, by rw [hFind, Option.bind_some, hTake]⟩
  | none =>
    simp only
    rw [qsFind_of_lookup_none hKey hFound]
    split
    · rfl
    · rfl

/-- On a form in memory that ends with its terminator, `qs_scanvalue` reads inside that memory
exactly when the form has a field with the name or ends with an empty field.  It returns an address
exactly for a field with the name, and leaves the value of the first one in the array. -/
theorem qsScanvalue_inside_iff {key : List UInt8} (hKey : ∀ k ∈ key, Plain k)
    (hNonempty : key ≠ []) {before : List UInt8} {fields : List Field}
    (hBegins : Begins before fields) (hVal : Closed val) :
    ((∃ result, qsScanvalue key (before ++ formText fields ++ [0]) val = some result) ↔
      (lookup key fields).isSome ∨ Ended fields) ∧
    ∀ found val', qsScanvalue key (before ++ formText fields ++ [0]) val = some (found, val') →
      (found = true ↔ (lookup key fields).isSome) ∧
      match lookup key fields with
      | some f => Taken f val'
      | none => val' = val := by
  have hScan := qsScanvalue_form hKey hNonempty hBegins hVal []
  cases hFound : lookup key fields with
  | some f =>
    rw [hFound] at hScan
    obtain ⟨val', -, hTaken, hScan⟩ := hScan
    refine ⟨iff_of_true ⟨_, hScan⟩ (.inl rfl), fun found val'' hRun => ?_⟩
    rw [hScan] at hRun
    cases hRun
    exact ⟨iff_of_true rfl rfl, hTaken⟩
  | none =>
    simp only [hFound] at hScan
    by_cases hEnded : Ended fields
    · rw [if_pos hEnded] at hScan
      refine ⟨iff_of_true ⟨_, hScan⟩ (.inr hEnded), fun found val' hRun => ?_⟩
      rw [hScan] at hRun
      cases hRun
      exact ⟨by simp, rfl⟩
    · rw [if_neg hEnded, qsFind, Option.bind_none] at hScan
      refine ⟨iff_of_false ?_ (by simp [hEnded]), fun found val' hRun => ?_⟩
      · rintro ⟨result, hRun⟩
        rw [hScan] at hRun
        cases hRun
      · rw [hScan] at hRun
        cases hRun

/-- The value of `content` in `content=a+b&`. -/
theorem qsScanvalue_inside_content : ∃ val',
    qsScanvalue (literal "content") (formText aSpaceB ++ [0]) (zeros 20) = some (true, val') ∧
      Holds val' [97, 32, 98] := by
  have hFound : lookup (literal "content") aSpaceB = some _ := rfl
  obtain ⟨hInside, hResult⟩ := qsScanvalue_inside_iff
    (show ∀ k ∈ literal "content", Plain k from List.all_iff_forall_prop.mp (by decide))
      (by decide)
    (.inl ⟨rfl, show 63 ∉ formText aSpaceB by decide⟩) (show Closed (zeros 20) by decide)
  obtain ⟨⟨found, val'⟩, hScan⟩ := hInside.mpr (.inl (by rw [hFound]; rfl))
  obtain ⟨hTrue, hTaken⟩ := hResult found val' hScan
  rw [hFound] at hTaken
  obtain ⟨s, -, hHolds, hWhole⟩ := hTaken
  rw [hWhole (by decide)] at hHolds
  obtain rfl : found = true := hTrue.mpr (by rw [hFound]; rfl)
  exact ⟨val', hScan, hHolds⟩

/-- The last byte of an array stays zero, whatever `qs_scanvalue` finds. -/
theorem qsScanvalue_closed (hVal : Closed val) {key qs : List UInt8} {found : Bool}
    {val' : Vector UInt8 n} (h : qsScanvalue key qs val = some (found, val')) : Closed val' := by
  obtain ⟨hSize, -⟩ := Vector.getElem?_eq_some_iff.mp hVal
  obtain ⟨start, -, h⟩ := Option.bind_eq_some_iff.mp h
  obtain ⟨s, -, h⟩ := Option.bind_eq_some_iff.mp h
  rw [takeValue] at h
  by_cases hNull : s.head? = some 0
  · rw [if_pos hNull] at h
    cases h
    exact hVal
  rw [if_neg hNull] at h
  obtain ⟨skip, -, h⟩ := Option.bind_eq_some_iff.mp h
  simp only at h
  by_cases hValue : (s.drop skip).head? = some 61
  · rw [if_pos hValue] at h
    obtain ⟨i, -, h⟩ := Option.bind_eq_some_iff.mp h
    obtain ⟨copied, hCopy, h⟩ := Option.bind_eq_some_iff.mp h
    obtain ⟨⟨length, decoded⟩, hDecode, h⟩ := Option.bind_eq_some_iff.mp h
    cases h
    rw [if_neg (by omega)] at hCopy
    unfold strncpy at hCopy
    simp only at hCopy
    split at hCopy
    · cases hCopy
    obtain ⟨-, hCopied⟩ := Option.ite_none_right_eq_some.mp hCopy
    obtain rfl := Option.some.inj hCopied
    rw [qsDecode, qsDecodeLoop_eq le_rfl, Option.map_eq_some_iff] at hDecode
    obtain ⟨bytes, hBytes, hEq⟩ := hDecode
    cases hEq
    have hLength := length_qsDecoded hBytes
    refine closed_write_string (closed_write hVal ?_) (by simpa using hLength)
    have hCut : ∀ len, (cstr ((s.drop skip).drop 1 |>.take len)).length ≤ len := fun len =>
      (List.takeWhile_sublist _).length_le.trans (List.length_take_le _ _)
    have hLen := hCut (min (n - 1) (i + 1))
    rw [List.length_append, List.length_replicate]
    omega
  · rw [if_neg hValue, if_pos (by omega)] at h
    cases h
    exact closed_write_string hVal (s := []) (by simp; omega)

end Value

end Shutter.Http
