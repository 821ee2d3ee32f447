import Shutter.Acch.Correct
import Shutter.Rules.Escape
import Shutter.Rules.Log

/-! The excerpt that `keyword_match` logs with a hit of the decompressed text.  A decoded text of
more than 200 bytes is cut to its last 200, and a shorter one to the empty string at its end;
`add_log` then looks for a byte that begins a character from both ends. -/

namespace Shutter.Acch

open Shutter.Acsm Shutter.Library
open Shutter.Rules (LogInfo LogTime LocationTuple initlog logAddkeyword logSetGkType utf8 utf8_cons
  forall_byte)

/-! ### The functions -/

/-- The size of `fulltext`. -/
def fulltextSize : Nat := 0x80000

/-- `decodeing` of `length` tokens into `fulltext`, where the text and its terminator fit. -/
def decodeing (l : Nat → UInt8) (dbuf : Nat → UInt16) (length : Nat) : Option (List UInt8) := do
  let result ← expand l dbuf length 0 []
  if result.length < fulltextSize then some result else none

/-- What `keyword_match` passes to `add_log`, on a hit. -/
def keywordMatch (acsm : AcsmxStruct) (l : Nat → UInt8) (dbuf : Nat → UInt16) (lastLit : Nat)
    (m : Memory) : Option (Option (List UInt8)) := do
  let o ← acch acsm l dbuf 0 lastLit m
  if o.ret = 0 then some none
  else do
    let textLength ← o.textLen
    let textLength := if lastLit < textLength + 10 then lastLit else textLength + 10
    let fulltext ← decodeing l dbuf textLength
    let logLen := fulltext.length
    let logLen := if 200 < logLen then logLen - 200 else logLen
    some (some (fulltext.drop logLen))

/-- The record of `add_log`, before the excerpt. -/
def newLog (time : LogTime) (lt : LocationTuple) (keyword : List UInt8) : Option LogInfo := do
  let log ← initlog time lt
  logAddkeyword (logSetGkType log 0) keyword

/-- The byte that `replace` writes for a byte. -/
def blank (b : UInt8) : UInt8 := if b = 10 ∨ b = 13 ∨ b = 124 then 32 else b

/-- `replace`. -/
def replace (buf : List UInt8) (size : Nat) : Option (List UInt8) :=
  if size ≤ buf.length then store ((buf.take size).map blank ++ buf.drop size) size [0] else none

/-- The loops of `add_log` stop at an ASCII byte and at the first of three or four. -/
def Stops (b : UInt8) : Prop := b &&& 0x80 = 0 ∨ b &&& 0xe0 = 224

instance (b : UInt8) : Decidable (Stops b) :=
  inferInstanceAs (Decidable (b &&& 0x80 = 0 ∨ b &&& 0xe0 = 224))

/-- The loop over `i`, with `rest` bytes left. -/
def scanUp (test : List UInt8) : Nat → Nat → Option Nat
  | 0, i => some i
  | rest + 1, i => do
    let b ← test[i]?
    if Stops b then some i else scanUp test rest (i + 1)

/-- The loop over `j`. -/
def scanDown (test : List UInt8) : Nat → Option Nat
  | 0 => some 0
  | j + 1 => do
    let b ← test[j + 1]?
    if Stops b then some (j + 1) else scanDown test j

/-- `add_log` from the cut of `fulltext` to the copy into the record.  It fails outside `test`,
which holds anything before. -/
def addLog (log : LogInfo) (test fulltext : List UInt8) : Option LogInfo := do
  let size := if fulltext.length < 400 then fulltext.length else 400
  let test ← store test 0 (fulltext.take size)
  let test ← replace test size
  let i ← scanUp test size 0
  match size with
  | 0 => none
  | last + 1 => do
    let j ← scanDown test last
    let test ← store test j [0]
    if i + j ≤ test.length then do
      let fulltext ← store log.fulltext 0 ((test.drop i).take j)
      some { log with fulltext }
    else none

/-! ### Characters -/

/-- The bytes behind the first of a character continue it. -/
theorem utf8EncodeChar_tail (c : Char) : ∃ b t, String.utf8EncodeChar c = b :: t ∧
    ∀ x ∈ t, 128 ≤ x.toNat ∧ x.toNat < 192 := by
  have hByte : ∀ n : Nat, 128 ≤ (UInt8.ofNat (n % 64 + 128)).toNat ∧
      (UInt8.ofNat (n % 64 + 128)).toNat < 192 := fun n => by
    rw [Rules.toNat_ofNat (by omega)]
    omega
  unfold String.utf8EncodeChar
  simp only
  split
  · exact ⟨_, _, rfl, by simp⟩
  split
  · refine ⟨_, _, rfl, fun x hx => ?_⟩
    obtain rfl := List.mem_singleton.mp hx
    exact hByte _
  split
  · refine ⟨_, _, rfl, fun x hx => ?_⟩
    rcases List.mem_cons.mp hx with rfl | hx
    · exact hByte _
    · obtain rfl := List.mem_singleton.mp hx
      exact hByte _
  · refine ⟨_, _, rfl, fun x hx => ?_⟩
    rcases List.mem_cons.mp hx with rfl | hx
    · exact hByte _
    rcases List.mem_cons.mp hx with rfl | hx
    · exact hByte _
    · obtain rfl := List.mem_singleton.mp hx
      exact hByte _

theorem Stops.not_continues {b : UInt8} : Stops b → ¬(128 ≤ b.toNat ∧ b.toNat < 192) :=
  forall_byte (P := fun b => Stops b → ¬(128 ≤ b.toNat ∧ b.toNat < 192))
    (by decide +kernel) b

theorem stops_blank (b : UInt8) : Stops (blank b) ↔ Stops b :=
  forall_byte (P := fun b => Stops (blank b) ↔ Stops b) (by decide +kernel) b

theorem blank_ne_zero {b : UInt8} (h : b ≠ 0) : blank b ≠ 0 := by
  unfold blank
  split
  · decide
  · exact h

/-- The loops stop at the first byte of a character. -/
theorem utf8_split {cs : List Char} {s rest : List UInt8} {b : UInt8}
    (h : utf8 cs = s ++ b :: rest) (hb : Stops b) :
    ∃ cs₁ cs₂, cs = cs₁ ++ cs₂ ∧ utf8 cs₁ = s ∧ utf8 cs₂ = b :: rest := by
  induction cs generalizing s with
  | nil => simp [utf8] at h
  | cons c cs ih =>
    by_cases hs : s = []
    · subst hs
      exact ⟨[], c :: cs, rfl, rfl, h⟩
    rw [utf8_cons] at h
    have hNext : ∀ s', s = String.utf8EncodeChar c ++ s' → utf8 cs = s' ++ b :: rest →
        ∃ cs₁ cs₂, c :: cs = cs₁ ++ cs₂ ∧ utf8 cs₁ = s ∧
          utf8 cs₂ = b :: rest := by
      intro s' hSplit hRest
      obtain ⟨cs₁, cs₂, rfl, rfl, hSecond⟩ := ih hRest
      exact ⟨c :: cs₁, cs₂, rfl, by rw [utf8_cons, hSplit], hSecond⟩
    rcases List.append_eq_append_iff.mp h with ⟨s', hSplit, hRest⟩ | ⟨bs, hSplit, hRest⟩
    · exact hNext s' hSplit hRest
    · cases bs with
      | nil => exact hNext [] (by rw [hSplit]; simp) hRest.symm
      | cons b' bs =>
        -- the byte would continue the character
        obtain ⟨rfl, -⟩ := List.cons.inj hRest
        obtain ⟨first, more, hChar, hTail⟩ := utf8EncodeChar_tail c
        obtain ⟨first', s, rfl⟩ := List.exists_cons_of_ne_nil hs
        rw [hChar, List.cons_append] at hSplit
        obtain ⟨-, hMore⟩ := List.cons.inj hSplit
        exact absurd (hTail b (by rw [hMore]; simp)) hb.not_continues

/-! ### The loops -/

theorem scanUp_spec (test : List UInt8) (rest i : Nat) (h : i + rest ≤ test.length) :
    ∃ k, scanUp test rest i = some k ∧ i ≤ k ∧ k ≤ i + rest ∧
      (k < i + rest → ∃ b, test[k]? = some b ∧ Stops b) ∧
      ∀ x, i ≤ x → x < k → ∀ b, test[x]? = some b → ¬Stops b := by
  induction rest generalizing i with
  | zero => exact ⟨i, rfl, Nat.le_refl i, Nat.le_refl i, by omega, by omega⟩
  | succ rest ih =>
    obtain ⟨b, hGet⟩ : ∃ b, test[i]? = some b := ⟨_, List.getElem?_eq_getElem (by omega)⟩
    have hRun : scanUp test (rest + 1) i = if Stops b then some i else scanUp test
      rest (i + 1) := by
      rw [scanUp, hGet]
      rfl
    rw [hRun]
    by_cases hb : Stops b
    · exact ⟨i, if_pos hb, Nat.le_refl i, by omega, fun _ => ⟨b, hGet, hb⟩, by omega⟩
    · obtain ⟨k, hk, hLe, hHigh, hStop, hBefore⟩ := ih (i + 1) (by omega)
      refine ⟨k, by rw [if_neg hb, hk], by omega, by omega, fun _ => hStop (by omega), ?_⟩
      intro x hx hxk b' hb'
      by_cases hxi : x = i
      · subst hxi
        obtain rfl := Option.some.inj (hGet.symm.trans hb')
        exact hb
      · exact hBefore x (by omega) hxk b' hb'

theorem scanDown_spec (test : List UInt8) (j : Nat) (h : j < test.length) :
    ∃ k, scanDown test j = some k ∧ k ≤ j ∧
      (k = 0 ∨ ∃ b, test[k]? = some b ∧ Stops b) ∧
      ∀ x, k < x → x ≤ j → ∀ b, test[x]? = some b → ¬Stops b := by
  induction j with
  | zero => exact ⟨0, rfl, Nat.le_refl 0, Or.inl rfl, by omega⟩
  | succ j ih =>
    obtain ⟨b, hGet⟩ : ∃ b, test[j + 1]? = some b := ⟨_, List.getElem?_eq_getElem h⟩
    have hRun : scanDown test (j + 1) = if Stops b then some (j + 1) else scanDown test j := by
      rw [scanDown, hGet]
      rfl
    rw [hRun]
    by_cases hb : Stops b
    · exact ⟨j + 1, if_pos hb, Nat.le_refl _, Or.inr ⟨b, hGet, hb⟩, by omega⟩
    · obtain ⟨k, hk, hLe, hStop, hBehind⟩ := ih (by omega)
      refine ⟨k, by rw [if_neg hb, hk], by omega, hStop, fun x hx hxj b' hb' => ?_⟩
      by_cases hxj' : x = j + 1
      · subst hxj'
        obtain rfl := Option.some.inj (hGet.symm.trans hb')
        exact hb
      · exact hBehind x hx (by omega) b' hb'

/-- The two loops meet, or neither finds a byte. -/
theorem scans_meet {test : List UInt8} {n : Nat} (hn : 0 < n) (h : n ≤ test.length) :
    ∃ i j, scanUp test n 0 = some i ∧ scanDown test (n - 1) = some j ∧ j < n ∧
      (i ≤ j ∧ (∃ b, test[i]? = some b ∧ Stops b) ∧
      (∃ b, test[j]? = some b ∧ Stops b) ∨
        i = n ∧ j = 0) := by
  obtain ⟨i, hi, -, hLe, hStop, hBefore⟩ := scanUp_spec test n 0 (by omega)
  obtain ⟨j, hj, hjn, hStop', hBehind⟩ := scanDown_spec test (n - 1) (by omega)
  refine ⟨i, j, hi, hj, by omega, ?_⟩
  by_cases hEnd : i = n
  · refine Or.inr ⟨hEnd, ?_⟩
    rcases hStop' with hZero | ⟨b, hb, hStops⟩
    · exact hZero
    · exact absurd hStops (hBefore j (by omega) (by omega) b hb)
  · obtain ⟨b, hb, hStops⟩ := hStop (by omega)
    have hij : i ≤ j := by
      by_contra hij
      exact hBehind i (by omega) (by omega) b hb hStops
    refine Or.inl ⟨hij, ⟨b, hb, hStops⟩, ?_⟩
    rcases hStop' with hZero | hFound
    · obtain rfl : i = j := by omega
      exact ⟨b, hb, hStops⟩
    · exact hFound

/-! ### The record -/

/-- The record holds characters of the text, from the part that was passed, with blanks for the line
ends and bars. -/
def AtBoundaries (cs : List Char) (s : List UInt8) (log : LogInfo) : Prop :=
  ∃ cs₁ cs₂ cs₃, cs = cs₁ ++ cs₂ ++ cs₃ ∧ utf8 cs₂ <:+: s ∧
    text log.fulltext = some ((utf8 cs₂).map blank)

/-- The copy from the first loop to the second, where the terminator is, is the string between
them. -/
theorem text_excerpt {v r : List UInt8} {i n : Nat} (hZero : 0 ∉ v)
    (hi : i ≤ v.length ∨ v = []) (hFits : v.length < n) :
    text (holding n (((v ++ 0 :: r).drop i).take v.length)) = some (v.drop i) := by
  by_cases hStart : v = [] ∨ i = 0
  · have hCopy : ((v ++ 0 :: r).drop i).take v.length = v ∧ v.drop i = v := by
      rcases hStart with rfl | rfl
      · simp
      · simp
    rw [hCopy.1, hCopy.2, text_holding hZero, if_pos hFits]
  · obtain ⟨hNonempty, hPos⟩ := not_or.mp hStart
    have hLe : i ≤ v.length := hi.resolve_right hNonempty
    have hCopy : ((v ++ 0 :: r).drop i).take v.length = v.drop i ++ 0 :: r.take (i - 1) := by
      obtain ⟨k, rfl⟩ := Nat.exists_eq_succ_of_ne_zero hPos
      rw [List.drop_append_of_le_length hLe, List.take_append, List.length_drop,
        List.take_of_length_le (by rw [List.length_drop]; omega), Nat.sub_sub_self hLe,
        List.take_succ_cons, Nat.succ_sub_one]
    have hDrop : 0 ∉ v.drop i := fun hMem => hZero (List.mem_of_mem_drop hMem)
    rw [hCopy, holding, List.append_assoc, List.cons_append, text_terminated,
      takeWhile_ne_zero hDrop]

theorem stops_map_blank {s r : List UInt8} {x : Nat} (hx : x < s.length)
    (h : ∃ b, (s.map blank ++ r)[x]? = some b ∧ Stops b) : ∃ b,
    s[x]? = some b ∧ Stops b := by
  obtain ⟨b, hGet, hStops⟩ := h
  rw [List.getElem?_append_left (by rw [List.length_map]; exact hx), List.getElem?_map] at hGet
  obtain ⟨c, hc, rfl⟩ := Option.map_eq_some_iff.mp hGet
  exact ⟨c, hc, (stops_blank c).mp hStops⟩

theorem replace_eq {s r : List UInt8} {b : UInt8} :
    replace (s ++ b :: r) s.length = some (s.map blank ++ 0 :: r) := by
  have hLength : (s.map blank).length = s.length := List.length_map blank
  rw [replace, if_pos (by rw [List.length_append]; omega), List.take_left, List.drop_left,
    store_of_le (by simp), List.length_singleton]
  nth_rewrite 1 [← hLength]
  rw [List.take_left, ← hLength, ← List.drop_drop, List.drop_left, List.append_assoc]
  rfl

/-- What `add_log` stores, for a passed string that is not empty. -/
theorem addLog_run {log : LogInfo} {test s : List UInt8} (hFulltext : log.fulltext = cleared 1000)
    (hTest : test.length = 1000) (hPos : 0 < s.length) (hShort : s.length < 400) (hZero : 0 ∉ s) :
    ∃ i j log', addLog log test s = some log' ∧
      text log'.fulltext = some (((s.take j).drop i).map blank) ∧
      (i ≤ j ∧ (∃ b, s[i]? = some b ∧ Stops b) ∧ (∃ b, s[j]? = some b ∧ Stops b) ∨
        i = s.length ∧ j = 0) := by
  obtain ⟨b, r, hr⟩ : ∃ b r, test.drop s.length = b :: r :=
    List.exists_cons_of_ne_nil (List.drop_eq_nil_iff.not.mpr (by omega))
  have hLengths : s.length + (r.length + 1) = 1000 := by
    have h := congrArg List.length hr
    rw [List.length_drop, List.length_cons] at h
    omega
  let w := s.map blank
  have hw : w.length = s.length := List.length_map blank
  have hCut : (if s.length < 400 then s.length else 400) = s.length := if_pos hShort
  have hStore : store test 0 (s.take s.length) = some (s ++ b :: r) := by
    rw [List.take_length, store_zero (by omega), hr]
  have hWhole : (w ++ 0 :: r).length = 1000 := by
    rw [List.length_append, List.length_cons, hw, hLengths]
  obtain ⟨i, j, hUp, hDown, hj, hMeet⟩ :=
    scans_meet hPos (show s.length ≤ (w ++ 0 :: r).length by omega)
  have hi : i ≤ j ∨ j = 0 := hMeet.imp And.left And.right
  have hEnd : store (w ++ 0 :: r) j [0] = some (w.take j ++ 0 :: (w ++ 0 :: r).drop (j + 1)) := by
    rw [store_of_le (by rw [hWhole, List.length_singleton]; omega), List.append_assoc,
      List.take_append_of_le_length (by omega)]
    rfl
  have hTake : (w.take j).length = j := by
    rw [List.length_take]
    omega
  let bytes := ((w.take j ++ 0 :: (w ++ 0 :: r).drop (j + 1)).drop i).take j
  have hBytes : bytes.length ≤ j := List.length_take_le _ _
  have hCopy : store log.fulltext 0 bytes = some (holding 1000 bytes) := by
    rw [hFulltext, store_cleared, if_pos (by omega)]
  have hOrigin : i + j ≤ (w.take j ++ 0 :: (w ++ 0 :: r).drop (j + 1)).length := by
    rw [List.length_append, List.length_cons, List.length_drop, hTake, hWhole]
    omega
  refine ⟨i, j, { log with fulltext := holding 1000 bytes }, ?_, ?_, ?_⟩
  · obtain ⟨last, hLast⟩ := Nat.exists_eq_succ_of_ne_zero hPos.ne'
    have hDown' : scanDown (w ++ 0 :: r) last = some j := by rw [← hDown, hLast]; rfl
    have hReplace : replace (s ++ b :: r) s.length = some (w ++ 0 :: r) := replace_eq
    simp only [addLog, hCut, hStore, hReplace, hUp, Option.bind_eq_bind, Option.bind_some]
    rw [hLast]
    simp only [hDown', hEnd, hCopy, if_pos hOrigin, Option.bind_some, bytes]
  · have hText := text_excerpt (v := w.take j) (r := (w ++ 0 :: r).drop (j + 1))
      (i := i) (n := 1000)
      (fun hMem => ?_) ?_ (by omega)
    · rw [hTake] at hText
      rw [hText, List.map_drop, List.map_take]
    · obtain ⟨c, hc, hZero'⟩ := List.mem_map.mp (List.mem_of_mem_take hMem)
      exact blank_ne_zero (fun h => hZero (h ▸ hc)) hZero'
    · rw [hTake]
      exact hi.imp id fun h => by rw [h, List.take_zero]
  · rcases hMeet with ⟨hij, hFirst, hSecond⟩ | ⟨hEq, hNone⟩
    · exact Or.inl ⟨hij, stops_map_blank (by omega) hFirst, stops_map_blank hj hSecond⟩
    · exact Or.inr ⟨hEq, hNone⟩

theorem drop_of_getElem? {s : List UInt8} {x : Nat} {b : UInt8} (h : s[x]? = some b) :
    s.drop x = b :: s.drop (x + 1) := by
  obtain ⟨hx, rfl⟩ := List.getElem?_eq_some_iff.mp h
  exact List.drop_eq_getElem_cons hx

/-- The excerpt holds whole characters of the text. -/
theorem addLog_atBoundaries {cs : List Char} {before s rest test : List UInt8} {log : LogInfo}
    (hUtf8 : utf8 cs = before ++ s ++ rest) (hFulltext : log.fulltext = cleared 1000)
    (hTest : test.length = 1000) (hPos : 0 < s.length) (hShort : s.length < 400) (hZero : 0 ∉ s) :
    ∃ log', addLog log test s = some log' ∧ AtBoundaries cs s log' := by
  obtain ⟨i, j, log', hRun, hText, hMeet⟩ := addLog_run hFulltext hTest hPos hShort hZero
  refine ⟨log', hRun, ?_⟩
  rcases hMeet with ⟨hij, ⟨b, hb, hStops⟩, ⟨b', hb', hStops'⟩⟩ | ⟨hi, rfl⟩
  · have hFirst : utf8 cs = (before ++ s.take i) ++ b :: (s.drop (i + 1) ++ rest) := by
      rw [hUtf8, ← List.cons_append, ← drop_of_getElem? hb, List.append_assoc,
        List.append_assoc,
        ← List.append_assoc (s.take i), List.take_append_drop]
    obtain ⟨cs₁, tail, rfl, -, hTail⟩ := utf8_split hFirst hStops
    have hSecond : utf8 tail = (s.take j).drop i ++ b' :: (s.drop (j + 1) ++ rest) := by
      have hj : j < s.length := (List.getElem?_eq_some_iff.mp hb').1
      have hParts : s.drop i = (s.take j).drop i ++ s.drop j := by
        conv_lhs => rw [← List.take_append_drop j s]
        exact List.drop_append_of_le_length (by rw [List.length_take]; omega)
      rw [hTail, ← List.cons_append, ← drop_of_getElem? hb, hParts, List.append_assoc,
        drop_of_getElem? hb', List.cons_append]
    obtain ⟨cs₂, cs₃, rfl, hMiddle, -⟩ := utf8_split hSecond hStops'
    refine ⟨cs₁, cs₂, cs₃, (List.append_assoc cs₁ cs₂ cs₃).symm, ?_, ?_⟩
    · rw [hMiddle]
      exact (List.drop_suffix i _).isInfix.trans (List.take_prefix j s).isInfix
    · rw [hText, hMiddle]
  · refine ⟨cs, [], [], by simp, List.nil_infix, ?_⟩
    rw [hText, List.take_zero, List.drop_nil]
    rfl

theorem newLog_fulltext {time : LogTime} {lt : LocationTuple} {keyword : List UInt8} {log : LogInfo}
    (h : newLog time lt keyword = some log) : log.fulltext = cleared 1000 := by
  simp only [newLog, initlog, logAddkeyword, logSetGkType, Option.bind_eq_bind,
    Option.bind_eq_some_iff, Option.some.injEq] at h
  obtain ⟨log₀, ⟨_, _, _, _, _, _, _, _, rfl⟩, _, _, rfl⟩ := h
  rfl

/-! ### The hit -/

/-- What `keyword_match` passes for a hit at a token. -/
theorem keywordMatch_eq {acsm : AcsmxStruct} {l : Nat → UInt8} {dbuf : Nat → UInt16}
    {lastLit i : Nat} {m : Memory} {o : Outcome} {t : List UInt8}
    (hAcch : acch acsm l dbuf 0 lastLit m = some o) (hRet : o.ret = 1) (hHit : o.textLen = some i)
    (hDecode : decodeing l dbuf (min lastLit (i + 10)) = some t) :
    keywordMatch acsm l dbuf lastLit m =
      some (some (t.drop (if 200 < t.length then t.length - 200 else t.length))) := by
  have hLength : (if lastLit < i + 10 then lastLit else i + 10) = min lastLit (i + 10) := by
    split <;> omega
  simp only [keywordMatch, hAcch, hRet, hHit, hLength, hDecode, Option.bind_eq_bind,
    Option.bind_some]
  rfl

/-- The logged context of a hit whose decoded prefix is `t` is well formed. -/
def LogsContext (acsm : AcsmxStruct) (l : Nat → UInt8) (dbuf : Nat → UInt16) (lastLit : Nat)
    (m : Memory) (cs : List Char) (t : List UInt8) : Prop :=
  ∃ s, keywordMatch acsm l dbuf lastLit m = some (some s) ∧ s ≠ [] ∧ s <:+ t ∧
    s.length = min 200 t.length ∧
    ∀ time lt keyword log test, newLog time lt keyword = some log → test.length = 1000 →
      ∃ log', addLog log test s = some log' ∧ AtBoundaries cs s log'

end Shutter.Acch
