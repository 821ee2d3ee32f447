import Shutter.Http.Model
import Mathlib.Data.List.Find

/-! What a callback for a field of the request takes from the bytes behind the field.  It gets the
length of the field, but `strstr`, `strchr` and `atoi` read on from the pointer, and `strncmp`
compares the first bytes of a name only. -/

namespace Shutter.Http

open Shutter.Library
open Shutter.Acsm (cstr cstr_block cstr_eq)

/-- The callbacks. -/
inductive Callback where
  | url
  | headerField
  | headerValue

def Callback.call (heap : Heap) : Callback → HttpParser → List UInt8 → Nat →
    Int × HttpParser
  | .url => onUrl heap
  | .headerField => onHeaderField
  | .headerValue => onHeaderValue heap

/-- The bytes at which `http_parser_execute` ends the field of a callback. -/
def Callback.ends : Callback → List UInt8
  | .url => literal " \r\n"
  | .headerField => literal ":\r\n"
  | .headerValue => literal "\r\n"

/-- What can be behind the field in a request: nothing, or one of these bytes and any others. -/
def Callback.Follows (callback : Callback) (rest : List UInt8) : Prop :=
  0 ∉ rest ∧ rest.head?.all (· ∈ callback.ends)

/-- The type of a header, by its complete name. -/
def typeOfName (name : List UInt8) : FieldType :=
  ((fieldNames.find? fun n => n.1 = name).map Prod.snd).getD .other

def HttpParser.withUserId (s : HttpParser) (userId : Vector UInt8 20) : HttpParser :=
  { s with cInfo := { s.cInfo with userId } }

/-- The call for the field with the bytes `own` depends on these only: whatever is behind them, it
makes the same changes, a header gets the type of its complete name, and only the value of a Cookie
changes the user id. -/
structure OwnField (heap : Heap) (callback : Callback) (s : HttpParser) (own : List UInt8) :
    Prop where
  alike : ∀ rest rest', callback.Follows rest → callback.Follows rest' →
    callback.call heap s (own ++ rest) own.length = callback.call heap s (own ++ rest') own.length
  name : callback = .headerField → ∀ rest, callback.Follows rest →
    (callback.call heap s (own ++ rest) own.length).2.gh.httpFieldType = typeOfName own
  userId : ¬(callback = .headerValue ∧ s.gh.httpFieldType = .cookie) →
    ∀ userId rest, callback.Follows rest →
      (callback.call heap (s.withUserId userId) (own ++ rest) own.length).2.cInfo.userId = userId

/-- The url is that of an upload with a `hostid`, and has a path behind its first slash. -/
def HttpParser.TakesHostId (s : HttpParser) (url : List UInt8) : Prop :=
  (urlGroups url s.gh.storage).path.start ≠ (urlGroups url s.gh.storage).path.stop ∧
    pageTypeOf s.cInfo url = .uploadPhoto ∧ (strstr url (literal "hostid=")).isSome

/-- The value has a `; id=`, and behind it a `;`, or more bytes than a user id can have. -/
def EndsId (value : List UInt8) : Prop :=
  ∃ i, strstr value (literal "; id=") = some i ∧
    (59 ∈ value.drop (i + 5) ∨ 19 ≤ (value.drop (i + 5)).length)

/-- The condition on the field. -/
def Callback.Confined (callback : Callback) (s : HttpParser) (own : List UInt8) : Prop :=
  match callback with
  | .url => own.length < 2 ∨ 300 < own.length ∨
      ((strstr own (literal "HTTP/1.1")).isSome ∧ ¬s.TakesHostId own)
  | .headerField => ∀ n ∈ fieldNames, n.1 <+: own → n.1 = own
  | .headerValue =>
    match s.gh.httpFieldType with
    | .cookie => firstByte s.cInfo.userId ≠ 0 ∨ EndsId own
    | .contentLen => ∃ c ∈ own, isspace c = false
    | .referer => s.cInfo.pType ≠ .none ∨ ¬s.TakesHostId own
    | _ => True

/-! ### Strings -/

variable {heap : Heap} {s : HttpParser} {own rest rest' : List UInt8} {callback : Callback}

theorem cstr_append (hOwn : 0 ∉ own) (hRest : 0 ∉ rest) : cstr (own ++ rest) = own ++ rest := by
  apply cstr_eq
  rw [List.mem_append]
  exact not_or.mpr ⟨hOwn, hRest⟩

theorem strstr_congr {url url' : List UInt8} (h : cstr url = cstr url') (needle : List UInt8) :
    strstr url needle = strstr url' needle := by
  unfold strstr
  rw [h]

theorem Callback.Follows.cases (h : callback.Follows rest) :
    rest = [] ∨ ∃ c tail, rest = c :: tail ∧ c ∈ callback.ends := by
  cases rest with
  | nil => exact Or.inl rfl
  | cons c tail => exact Or.inr ⟨c, tail, rfl, of_decide_eq_true h.2⟩

theorem Callback.follows_nil (callback : Callback) : callback.Follows [] :=
  ⟨by simp, by simp⟩

/-! ### The name of a header -/

theorem ends_not_mem_name : ∀ n ∈ fieldNames, n.1.all (· ∉ Callback.headerField.ends) := by
  decide

theorem names_apart : ∀ n ∈ fieldNames, ∀ n' ∈ fieldNames, n.1 <+: n'.1 → n = n' := by
  decide

theorem names_typed : ∀ n ∈ fieldNames, n.2 ≠ .other := by
  decide

theorem startsWith_append (hOwn : 0 ∉ own) (h : Callback.headerField.Follows rest)
    {n : List UInt8 × FieldType} (hn : n ∈ fieldNames) :
    startsWith (own ++ rest) n.1 = decide (n.1 <+: own) := by
  unfold startsWith
  rw [cstr_append hOwn h.1, Bool.eq_iff_iff, List.isPrefixOf_iff_prefix, decide_eq_true_iff]
  constructor
  · intro hPrefix
    rcases h.cases with rfl | ⟨c, tail, rfl, hEnd⟩
    · rwa [List.append_nil] at hPrefix
    · refine prefix_of_not_mem ?_ hPrefix
      intro hMem
      have hNot := List.all_eq_true.mp (ends_not_mem_name n hn) c hMem
      exact of_decide_eq_true hNot hEnd
  · intro hPrefix
    exact hPrefix.trans (List.prefix_append own rest)

theorem headerFieldType_append (hOwn : 0 ∉ own) (h : Callback.headerField.Follows rest) :
    headerFieldType (own ++ rest) =
      ((fieldNames.find? fun n => n.1 <+: own).map Prod.snd).getD .other := by
  unfold headerFieldType
  congr 2
  apply List.find?_congr
  intro n hn
  exact startsWith_append hOwn h hn

/-- That is the type of its complete name, unless the name goes on behind it. -/
theorem firstName_iff :
    ((fieldNames.find? fun n => n.1 <+: own).map Prod.snd).getD .other = typeOfName own ↔
      ∀ n ∈ fieldNames, n.1 <+: own → n.1 = own := by
  unfold typeOfName
  constructor
  · intro hType n hn hPrefix
    by_contra hNe
    have hNone : (fieldNames.find? fun n => n.1 = own) = none := by
      rw [List.find?_eq_none]
      intro n' hn' hEq
      have hOwn : n'.1 = own := by simpa using hEq
      obtain rfl := names_apart n hn n' hn' (hOwn ▸ hPrefix)
      exact hNe hOwn
    obtain ⟨m, hm⟩ : ∃ m, (fieldNames.find? fun n => n.1 <+: own) = some m := by
      rw [← Option.isSome_iff_exists, List.find?_isSome]
      exact ⟨n, hn, by simpa using hPrefix⟩
    rw [hNone, hm] at hType
    exact names_typed m (List.mem_of_find?_eq_some hm) hType
  · intro hComplete
    congr 2
    apply List.find?_congr
    intro n hn
    rw [Bool.eq_iff_iff, decide_eq_true_iff, decide_eq_true_iff]
    constructor
    · exact hComplete n hn
    · rintro rfl
      exact List.prefix_rfl

theorem headerField_iff (hOwn : 0 ∉ own) :
    OwnField heap .headerField s own ↔ Callback.headerField.Confined s own := by
  rw [Callback.Confined, ← firstName_iff]
  constructor
  · intro h
    rw [← h.name rfl [] (Callback.follows_nil _)]
    exact (headerFieldType_append hOwn (Callback.follows_nil _)).symm
  · intro hType
    refine ⟨?_, ?_, ?_⟩
    · intro rest rest' h h'
      simp only [Callback.call, onHeaderField, headerFieldType_append hOwn h,
        headerFieldType_append hOwn h']
    · intro _ rest h
      rw [← hType]
      exact headerFieldType_append hOwn h
    · intro _ userId rest _
      rfl

/-! ### The number of a Content-Length -/

theorem end_not_digit {c : UInt8} (h : c ∈ Callback.headerValue.ends) : isdigit c = false := by
  have hAll : Callback.headerValue.ends.all fun c => !isdigit c := by decide
  simpa using List.all_eq_true.mp hAll c h

theorem strtol_append (h : Callback.headerValue.Follows rest) (negative : Bool) (own : List UInt8) :
    strtol negative (own ++ rest) = strtol negative own := by
  have hDigits : (own ++ rest).takeWhile isdigit = own.takeWhile isdigit := by
    rw [List.takeWhile_append]
    split
    · rename_i hAll
      have hRest : rest.takeWhile isdigit = [] := by
        rcases h.cases with rfl | ⟨c, tail, rfl, hEnd⟩
        · rfl
        · rw [List.takeWhile_cons, end_not_digit hEnd]
          rfl
      rw [hRest, List.append_nil]
      exact (List.IsPrefix.eq_of_length (List.takeWhile_prefix _) hAll).symm
    · rfl
  unfold strtol
  rw [hDigits]

theorem atoi_append (hOwn : 0 ∉ own) (h : Callback.headerValue.Follows rest)
    (hStart : ∃ c ∈ own, isspace c = false) : atoi (own ++ rest) = atoi own := by
  unfold atoi
  rw [cstr_append hOwn h.1, cstr_eq hOwn, List.dropWhile_append]
  cases hDrop : own.dropWhile isspace with
  | nil =>
    obtain ⟨c, hc, hNot⟩ := hStart
    have hAll := List.dropWhile_eq_nil_iff.mp hDrop c hc
    rw [hNot] at hAll
    cases hAll
  | cons c number =>
    have hNumber := strtol_append h false (c :: number)
    rw [List.cons_append] at hNumber
    simp only [List.isEmpty_cons, Bool.false_eq_true, if_false, List.cons_append, hNumber,
      strtol_append h]

theorem atoi_of_spaces (hOwn : 0 ∉ own) (hSpaces : ∀ c ∈ own, isspace c = true) :
    atoi own = 0 ∧ atoi (own ++ literal "\r1") = 1 := by
  have hNil : own.dropWhile isspace = [] := List.dropWhile_eq_nil_iff.mpr hSpaces
  refine ⟨?_, ?_⟩
  · rw [atoi, cstr_eq hOwn, hNil]
  · rw [atoi, cstr_append hOwn (by decide), List.dropWhile_append, hNil]
    decide

/-! ### Arrays -/

theorem write_getElem {n : Nat} (a : Vector UInt8 n) (i : Nat) (bytes : List UInt8) {k : Nat}
    (hk : k < n) :
    (write a i bytes)[k] = if i ≤ k then (bytes[k - i]?).getD a[k] else a[k] := by
  simp [write]

theorem copy_getElem {n : Nat} (a : Vector UInt8 n) {s : List UInt8} {len k : Nat} (hk : k < n)
    (hLen : k < len) (hs : k < s.length) : (copy a s len)[k] = s[k] := by
  have hTake : (s.take len)[k]? = some s[k] := by
    rw [List.getElem?_take_of_lt hLen, List.getElem?_eq_getElem hs]
  unfold copy
  rw [write_getElem _ _ _ hk, if_neg (Nat.not_le.mpr hLen), write_getElem _ _ _ hk,
    if_pos (Nat.zero_le k), Nat.sub_zero, hTake, Option.getD_some]

theorem copy_getElem_len {n : Nat} (a : Vector UInt8 n) (s : List UInt8) {len : Nat} (h : len < n) :
    (copy a s len)[len] = 0 := by
  unfold copy
  rw [write_getElem _ _ _ h, if_pos (Nat.le_refl len), Nat.sub_self]
  rfl

theorem copy_append {n : Nat} (a : Vector UInt8 n) {s : List UInt8} {len : Nat}
    (h : len ≤ s.length) (rest : List UInt8) : copy a (s ++ rest) len = copy a s len := by
  unfold copy
  rw [List.take_append_of_le_length h]

theorem write_zero {n : Nat} (a : Vector UInt8 n) (hn : 0 < n) (h : a[0] = 0) :
    write a 0 [0] = a := by
  apply Vector.ext
  intro k hk
  rw [write_getElem _ _ _ hk, if_pos (Nat.zero_le k)]
  cases k with
  | zero => simp [h]
  | succ k => simp

/-! ### The id of a Cookie -/

variable {userId : Vector UInt8 20}

theorem strstr_append (hOwn : 0 ∉ own) (hRest : 0 ∉ rest) {needle : List UInt8} {i : Nat}
    (h : strstr own needle = some i) : strstr (own ++ rest) needle = some i := by
  unfold strstr at h ⊢
  rw [cstr_eq hOwn] at h
  rw [cstr_append hOwn hRest]
  exact occurrence_append h rest

theorem strstr_le (hOwn : 0 ∉ own) {needle : List UInt8} {i : Nat}
    (h : strstr own needle = some i) :
    i + needle.length ≤ own.length := by
  unfold strstr at h
  rw [cstr_eq hOwn] at h
  exact occurrence_le h

theorem semicolon_not_end : 59 ∉ Callback.headerValue.ends := by
  decide

/-- The bytes of an id that does not end in the field are too many for a user id. -/
theorem strchr_long {id : List UInt8} (hId : 0 ∉ id) (hNone : 59 ∉ id)
    (hLong : 19 ≤ id.length) (h : Callback.headerValue.Follows rest) {len : Nat}
    (hLen : strchr (id ++ rest) 59 = some len) :
    20 ≤ len := by
  unfold strchr strstr at hLen
  rw [cstr_append hId h.1, occurrence_singleton_append hNone] at hLen
  obtain ⟨j, hj, rfl⟩ := Option.map_eq_some_iff.mp hLen
  have hPrefix := occurrence_start hj
  cases j with
  | succ j => omega
  | zero =>
    exfalso
    rcases h.cases with rfl | ⟨c, tail, rfl, hEnd⟩
    · cases hj
    · obtain ⟨rfl, -⟩ := List.cons_prefix_cons.mp hPrefix
      exact semicolon_not_end hEnd

/-- An id that ends in the field is taken from it, and one that is too long is not taken. -/
theorem idBefore_append {id : List UInt8} (hUser : firstByte userId = 0) (hId : 0 ∉ id)
    (h : Callback.headerValue.Follows rest) (hEnd : 59 ∈ id ∨ 19 ≤ id.length) :
    idBefore userId (id ++ rest) = idBefore userId id := by
  by_cases hMem : 59 ∈ id
  · obtain ⟨len, hLen⟩ : ∃ len, strchr id 59 = some len := by
      unfold strchr strstr
      rw [cstr_eq hId, ← Option.isSome_iff_exists, occurrence_isSome, List.singleton_infix_iff]
      exact hMem
    have hLe : len + 1 ≤ id.length := strstr_le hId hLen
    have hLen' : strchr (id ++ rest) 59 = some len := strstr_append hId h.1 hLen
    unfold idBefore
    rw [hLen, hLen']
    simp only [copy_append userId (Nat.le_of_succ_le hLe) rest]
  · have hKept : ∀ rest, Callback.headerValue.Follows rest →
        idBefore userId (id ++ rest) = userId := by
      intro rest h
      unfold idBefore
      cases hLen : strchr (id ++ rest) 59 with
      | none => rfl
      | some len =>
        have := strchr_long hId hMem (hEnd.resolve_left hMem) h hLen
        simp only
        rw [if_neg (by omega), write_zero userId (by decide) hUser]
    have hAlone := hKept [] (Callback.follows_nil _)
    rw [List.append_nil] at hAlone
    rw [hKept rest h, hAlone]

/-- The user id does not depend on the bytes behind the field, if its end does not. -/
theorem cookieId_append (hOwn : 0 ∉ own) (h : Callback.headerValue.Follows rest)
    (hEnds : firstByte userId ≠ 0 ∨ EndsId own) :
    cookieId userId (own ++ rest) = cookieId userId own := by
  unfold cookieId
  split
  · rename_i hUser
    obtain ⟨i, hi, hEnd⟩ := hEnds.resolve_left (not_not.mpr hUser)
    have hFit : i + 5 ≤ own.length := strstr_le hOwn hi
    have hId : 0 ∉ own.drop (i + 5) := fun h0 => hOwn (List.mem_of_mem_drop h0)
    rw [strstr_append hOwn h.1 hi, hi]
    simp only [List.drop_append_of_le_length hFit]
    exact idBefore_append hUser hId h hEnd
  · rfl

theorem firstByte_copy (userId : Vector UInt8 20) {id : List UInt8} {len : Nat} (hLen : 0 < len)
    (hId : 0 < id.length) : firstByte (copy userId id len) = id[0] :=
  copy_getElem userId (by decide) hLen hId

theorem idBefore_of_strchr {id : List UInt8} {len : Nat} (h : strchr id 59 = some len)
    (hPos : 0 < len) (hLt : len < 20) : idBefore userId id = copy userId id len := by
  unfold idBefore
  rw [h]
  exact if_pos ⟨hPos, hLt⟩

theorem idBefore_behind (userId : Vector UInt8 20) {id : List UInt8} (hId : 0 ∉ id)
    (hNo : 59 ∉ id) (hShort : id.length < 19) :
    idBefore userId id = userId ∧ firstByte (idBefore userId (id ++ literal "\r;")) ≠ 0 := by
  have hNone : strchr id 59 = none := by
    unfold strchr strstr
    rw [cstr_eq hId, occurrence_eq_none, List.singleton_infix_iff]
    exact hNo
  have hBehind : strchr (id ++ literal "\r;") 59 = some (id.length + 1) := by
    unfold strchr strstr
    rw [cstr_append hId (by decide), occurrence_singleton_append hNo]
    rfl
  have hPos : 0 < (id ++ literal "\r;").length := by
    rw [List.length_append]
    exact Nat.add_pos_right _ (by decide)
  refine ⟨by rw [idBefore, hNone], ?_⟩
  rw [idBefore_of_strchr hBehind (Nat.succ_pos _) (by omega),
    firstByte_copy userId (Nat.succ_pos _) hPos]
  intro hZero
  have hMem := List.getElem_mem hPos
  rw [hZero, List.mem_append] at hMem
  rcases hMem with hMem | hMem
  · exact hId hMem
  · revert hMem
    decide

theorem cookieId_differs (hOwn : 0 ∉ own) (hUser : firstByte userId = 0) (hNot : ¬EndsId own) :
    ∃ rest, Callback.headerValue.Follows rest ∧
      cookieId userId (own ++ rest) ≠ cookieId userId own := by
  have hFirst : ∀ rest, firstByte (cookieId userId (own ++ rest)) ≠ 0 →
      cookieId userId own = userId →
      cookieId userId (own ++ rest) ≠ cookieId userId own := by
    intro rest hNew hOld hSame
    rw [hSame, hOld] at hNew
    exact hNew hUser
  cases hi : strstr own (literal "; id=") with
  | none =>
    have hNone : ¬literal "; id=" <:+: own := by
      rw [← occurrence_eq_none, ← cstr_eq hOwn]
      exact hi
    have hBehind : strstr (own ++ literal "\r; id=a;") (literal "; id=") =
        some (own.length + 1 + 0) := by
      have hHere : occurrence (literal "; id=") (literal "; id=a;") = some 0 := by decide
      have hAppend := occurrence_append_cons hNone (d := 13) (by decide) (literal "; id=a;")
      rw [hHere] at hAppend
      unfold strstr
      rw [cstr_append hOwn (by decide)]
      exact hAppend
    have hDrop : (own ++ literal "\r; id=a;").drop (own.length + 1 + 0 + 5) = literal "a;" := by
      rw [Nat.add_assoc, Nat.add_assoc, List.drop_length_add_append]
      decide
    have hTaken : cookieId userId (own ++ literal "\r; id=a;") = copy userId (literal "a;") 1 := by
      have hLen : strchr (literal "a;") 59 = some 1 := by decide
      rw [← idBefore_of_strchr hLen (by decide) (by decide), ← hDrop]
      unfold cookieId
      rw [if_pos hUser, hBehind]
    refine ⟨literal "\r; id=a;", ⟨by decide, by decide⟩, hFirst _ ?_ ?_⟩
    · rw [hTaken, firstByte_copy userId (by decide) (by decide)]
      decide
    · unfold cookieId
      rw [if_pos hUser, hi]
  | some i =>
    have hFit : i + 5 ≤ own.length := strstr_le hOwn hi
    have hId : 0 ∉ own.drop (i + 5) := fun h0 => hOwn (List.mem_of_mem_drop h0)
    have hNo : 59 ∉ own.drop (i + 5) := fun hMem => hNot ⟨i, hi, Or.inl hMem⟩
    have hShort : (own.drop (i + 5)).length < 19 := by
      by_contra hLong
      exact hNot ⟨i, hi, Or.inr (Nat.le_of_not_lt hLong)⟩
    obtain ⟨hAlone, hBehind⟩ := idBefore_behind userId hId hNo hShort
    refine ⟨literal "\r;", ⟨by decide, by decide⟩, hFirst _ ?_ ?_⟩
    · unfold cookieId
      rw [if_pos hUser, strstr_append hOwn (by decide) hi]
      simp only [List.drop_append_of_le_length hFit]
      exact hBehind
    · unfold cookieId
      rw [if_pos hUser, hi]
      exact hAlone

theorem cstr_copy {n : Nat} (a : Vector UInt8 n) (hOwn : 0 ∉ own) (h : own.length < n) :
    cstr (copy a own own.length).toList = own := by
  have hSplit : (copy a own own.length).toList.take (own.length + 1) = own ++ [0] := by
    apply List.ext_getElem
    · simp only [List.length_take, Vector.length_toList, List.length_append, List.length_singleton]
      omega
    · intro k hk _
      have hLe : k < own.length + 1 := by
        rw [List.length_take] at hk
        omega
      rw [List.getElem_take, Vector.getElem_toList]
      rcases Nat.lt_or_eq_of_le (Nat.le_of_lt_succ hLe) with hLt | rfl
      · rw [copy_getElem a (by omega) hLt hLt, List.getElem_append_left hLt]
      · rw [copy_getElem_len a own h]
        simp
  rw [← List.take_append_drop (own.length + 1) (copy a own own.length).toList, hSplit,
    List.append_assoc, List.singleton_append]
  exact cstr_block hOwn _

/-! ### The url -/

/-- `_url_parse` looks at the string of a url. -/
theorem takesHostId_congr {url url' : List UInt8} (h : cstr url = cstr url') :
    s.TakesHostId url ↔ s.TakesHostId url' := by
  have hGroups : urlGroups url s.gh.storage = urlGroups url' s.gh.storage := by
    unfold urlGroups parseURL
    rw [h]
  have hType : pageTypeOf s.cInfo url = pageTypeOf s.cInfo url' := by
    unfold pageTypeOf pageType
    simp only [strstr_congr h]
  unfold HttpParser.TakesHostId
  rw [hGroups, hType, strstr_congr h]

theorem noteIds_userId (path : List UInt8) (c : ConnectionInfo) :
    (noteIds path c).userId = c.userId := by
  unfold noteIds
  generalize (strstr path (literal "blogs/")).isSome = blogs
  cases strstr path (literal "blog/") with
  | none => cases blogs <;> rfl
  | some i =>
    simp only
    cases strstr (path.drop (i + 6)) (literal "/") <;> cases blogs <;> rfl

theorem likeIds_userId (heap : Heap) (url : List UInt8) (c : ConnectionInfo) :
    (likeIds heap url c).userId = c.userId := by
  unfold likeIds
  cases strstr url (literal "_") <;> cases strstr url (literal "owner") <;> rfl

theorem urlParse_getTest (heap : Heap) (url : List UInt8) (s : HttpParser) :
    (urlParse heap url s).getTest = s.getTest := by
  unfold urlParse
  simp only
  split
  · rfl
  · split <;> rfl

/-- `_url_parse` keeps the user id, unless it takes the `hostid`. -/
theorem urlParse_userId {url : List UInt8} (hNot : ¬s.TakesHostId url) :
    (urlParse heap url s).cInfo.userId = s.cInfo.userId := by
  unfold urlParse
  simp only
  split
  · rfl
  · rename_i hPath
    split
    · exact noteIds_userId _ _
    · exact likeIds_userId _ _ _
    · rename_i hType
      unfold uploadIds
      cases hHost : strstr url (literal "hostid=") with
      | none => rfl
      | some i => exact absurd ⟨hPath, hType, by rw [hHost]; rfl⟩ hNot
    · rfl

theorem urlParse_hostId (heap : Heap) {url : List UInt8} (h : s.TakesHostId url) :
    ∃ i, (urlParse heap url s).cInfo.userId = copy s.cInfo.userId (url.drop (i + 7)) 9 := by
  obtain ⟨hPath, hType, hHost⟩ := h
  obtain ⟨i, hi⟩ := Option.isSome_iff_exists.mp hHost
  refine ⟨i, ?_⟩
  unfold urlParse
  simp only
  rw [if_neg hPath, hType]
  unfold uploadIds
  rw [hi]

theorem getTest_append (hOwn : 0 ∉ own) (hRest : 0 ∉ rest)
    (h : (strstr own (literal "HTTP/1.1")).isSome) : getTest (own ++ rest) = getTest own := by
  obtain ⟨i, hi⟩ := Option.isSome_iff_exists.mp h
  have hFit := strstr_le hOwn hi
  unfold getTest
  rw [strstr_append hOwn hRest hi, hi]
  simp only [List.take_append_of_le_length (show i - 1 ≤ own.length by omega)]

/-- The version behind a url puts the url into `GET_test`, and without it `GET_test` is empty. -/
theorem getTest_differs (hOwn : 0 ∉ own) (hLen : 0 < own.length)
    (h : ¬(strstr own (literal "HTTP/1.1")).isSome) :
    getTest (own ++ literal " HTTP/1.1") ≠ getTest own := by
  have hNone : strstr own (literal "HTTP/1.1") = none := by simpa using h
  have hInfix : ¬literal "HTTP/1.1" <:+: own := by
    rw [← occurrence_eq_none, ← cstr_eq hOwn]
    exact hNone
  have hBehind : strstr (own ++ literal " HTTP/1.1") (literal "HTTP/1.1") =
      some (own.length + 1 + 0) := by
    have hHere : occurrence (literal "HTTP/1.1") (literal "HTTP/1.1") = some 0 := by decide
    have hAppend := occurrence_append_cons hInfix (d := 32) (by decide) (literal "HTTP/1.1")
    rw [hHere] at hAppend
    unfold strstr
    rw [cstr_append hOwn (by decide)]
    exact hAppend
  have hTest : getTest (own ++ literal " HTTP/1.1") = write (zeros 512) 0 own := by
    unfold getTest
    rw [hBehind]
    simp only [Nat.add_zero, Nat.add_sub_cancel]
    rw [List.take_left]
  intro hSame
  have hZero : (write (zeros 512) 0 own)[0] = (zeros 512)[0] := by
    rw [← hTest, hSame, getTest, hNone]
  have hFirst : own[0]? = some own[0] := List.getElem?_eq_getElem hLen
  rw [write_getElem _ _ _ (by decide), if_pos (Nat.le_refl 0), Nat.sub_self, hFirst,
    Option.getD_some] at hZero
  have hNul : own[0] = 0 := by simpa [zeros] using hZero
  exact hOwn (hNul ▸ List.getElem_mem hLen)

theorem takesHostId_withUrl (s : HttpParser) (copied : Vector UInt8 4696)
    (test : Vector UInt8 512) (url : List UInt8) :
    (s.withUrl copied test).TakesHostId url ↔ s.TakesHostId url := by
  unfold HttpParser.TakesHostId pageTypeOf
  rfl

theorem onUrl_eq (hShort : 2 ≤ own.length) (hLong : own.length ≤ 300) (rest : List UInt8) :
    onUrl heap s (own ++ rest) own.length =
      (0, urlParse heap (copy s.gh.url own own.length).toList
        (s.withUrl (copy s.gh.url own own.length) (getTest (own ++ rest)))) := by
  unfold onUrl
  rw [if_neg (by omega)]
  simp only [copy_append s.gh.url (Nat.le_refl _) rest]

theorem onUrl_userId (heap : Heap) (hOwn : 0 ∉ own) (hShort : 2 ≤ own.length)
    (hLong : own.length ≤ 300) (rest : List UInt8) :
    (¬s.TakesHostId own →
      (onUrl heap s (own ++ rest) own.length).2.cInfo.userId = s.cInfo.userId) ∧
    (s.TakesHostId own →
      ∃ id, (onUrl heap s (own ++ rest) own.length).2.cInfo.userId =
        copy s.cInfo.userId id 9) := by
  have hString : cstr (copy s.gh.url own own.length).toList = cstr own := by
    rw [cstr_copy _ hOwn (Nat.lt_of_le_of_lt hLong (by decide)), cstr_eq hOwn]
  rw [onUrl_eq hShort hLong]
  generalize copy s.gh.url own own.length = copied at hString
  have hTakes : (s.withUrl copied (getTest (own ++ rest))).TakesHostId copied.toList ↔
      s.TakesHostId own :=
    (takesHostId_congr hString).trans (takesHostId_withUrl s _ _ own)
  constructor
  · intro hNot
    rw [urlParse_userId (mt hTakes.mp hNot)]
    rfl
  · intro hHost
    obtain ⟨i, hi⟩ := urlParse_hostId heap (hTakes.mpr hHost)
    exact ⟨_, hi⟩

theorem copy_differs (id : List UInt8) :
    copy (Vector.replicate 20 1) id 9 ≠ Vector.replicate 20 1 := by
  intro hSame
  have hEnd := copy_getElem_len (Vector.replicate 20 1) id (show 9 < 20 by decide)
  rw [hSame, Vector.getElem_replicate] at hEnd
  revert hEnd
  decide

theorem takesHostId_withUserId (s : HttpParser) (userId : Vector UInt8 20) (url : List UInt8) :
    (s.withUserId userId).TakesHostId url ↔ s.TakesHostId url := by
  unfold HttpParser.TakesHostId pageTypeOf
  rfl

theorem url_iff (hOwn : 0 ∉ own) : OwnField heap .url s own ↔ Callback.url.Confined s own := by
  unfold Callback.Confined
  by_cases hBad : 300 < own.length ∨ own.length < 2
  · have hKept : ∀ (s : HttpParser) (rest : List UInt8),
        onUrl heap s (own ++ rest) own.length = (-1, s) := fun s rest => if_pos hBad
    constructor
    · intro _
      rcases hBad with hLong | hShort
      · exact Or.inr (Or.inl hLong)
      · exact Or.inl hShort
    · intro _
      refine ⟨?_, ?_, ?_⟩
      · intro rest rest' _ _
        simp only [Callback.call, hKept]
      · intro hField
        cases hField
      · intro _ userId rest _
        simp only [Callback.call, hKept]
        rfl
  · obtain ⟨hShort, hLong⟩ : 2 ≤ own.length ∧ own.length ≤ 300 := by omega
    constructor
    · intro h
      refine Or.inr (Or.inr ⟨?_, ?_⟩)
      · by_contra hVersion
        have hAlike := h.alike (literal " HTTP/1.1") [] ⟨by decide, by decide⟩
          (Callback.follows_nil _)
        refine getTest_differs hOwn (by omega) hVersion ?_
        have hTest := congrArg (fun result => result.2.getTest) hAlike
        simp only [Callback.call, onUrl_eq hShort hLong, urlParse_getTest] at hTest
        rw [List.append_nil] at hTest
        exact hTest
      · intro hTakes
        have hKept := h.userId (by simp) (Vector.replicate 20 1) [] (Callback.follows_nil _)
        obtain ⟨id, hId⟩ := (onUrl_userId heap hOwn hShort hLong []).2
          ((takesHostId_withUserId s (Vector.replicate 20 1) own).mpr hTakes)
        exact copy_differs id (hId.symm.trans hKept)
    · rintro (hLt | hGt | ⟨hVersion, hTakes⟩)
      · omega
      · omega
      · refine ⟨?_, ?_, ?_⟩
        · intro rest rest' h h'
          simp only [Callback.call, onUrl_eq hShort hLong, getTest_append hOwn h.1 hVersion,
            getTest_append hOwn h'.1 hVersion]
        · intro hField
          cases hField
        · intro _ userId rest _
          refine (onUrl_userId heap hOwn hShort hLong rest).1 ?_
          rwa [takesHostId_withUserId]

/-! ### The value of a header -/

/-- The value of a header that does not set the user id, when the call does not look behind it. -/
theorem ownField_of_kept
    (hAlike : ∀ rest, Callback.headerValue.Follows rest →
      onHeaderValue heap s (own ++ rest) own.length = onHeaderValue heap s own own.length)
    (hKept : ∀ userId rest, Callback.headerValue.Follows rest →
      (onHeaderValue heap (s.withUserId userId) (own ++ rest) own.length).2.cInfo.userId = userId) :
    OwnField heap .headerValue s own where
  alike := by
    intro rest rest' h h'
    exact (hAlike rest h).trans (hAlike rest' h').symm
  name := by
    intro hField
    cases hField
  userId := by
    intro _
    exact hKept

theorem cookie_iff (hOwn : 0 ∉ own) (hType : s.gh.httpFieldType = .cookie) :
    OwnField heap .headerValue s own ↔ firstByte s.cInfo.userId ≠ 0 ∨ EndsId own := by
  have hCall : ∀ rest, onHeaderValue heap s (own ++ rest) own.length =
      (0,
        { s with cInfo := { s.cInfo with userId := cookieId s.cInfo.userId (own ++ rest) } }) := by
    intro rest
    unfold onHeaderValue
    rw [hType]
  constructor
  · intro h
    by_contra hNot
    rw [not_or, not_not] at hNot
    obtain ⟨rest, hRest, hDiffers⟩ := cookieId_differs hOwn hNot.1 hNot.2
    have hAlike := h.alike rest [] hRest (Callback.follows_nil _)
    have hId := congrArg (fun result => result.2.cInfo.userId) hAlike
    simp only [Callback.call, hCall] at hId
    rw [List.append_nil] at hId
    exact hDiffers hId
  · intro hEnds
    refine ⟨?_, ?_, ?_⟩
    · intro rest rest' h h'
      simp only [Callback.call, hCall, cookieId_append hOwn h hEnds,
        cookieId_append hOwn h' hEnds]
    · intro hField
      cases hField
    · intro hNot
      exact absurd ⟨rfl, hType⟩ hNot

theorem contentLen_iff (hOwn : 0 ∉ own) (hType : s.gh.httpFieldType = .contentLen) :
    OwnField heap .headerValue s own ↔ ∃ c ∈ own, isspace c = false := by
  have hCall : ∀ rest, onHeaderValue heap s (own ++ rest) own.length =
      (0, { s with gh := { s.gh with contentLength := atoi (own ++ rest) } }) := by
    intro rest
    unfold onHeaderValue
    rw [hType]
  constructor
  · intro h
    by_contra hSpaces
    push Not at hSpaces
    obtain ⟨hZero, hOne⟩ := atoi_of_spaces hOwn fun c hc => by simpa using hSpaces c hc
    have hAlike := h.alike (literal "\r1") [] ⟨by decide, by decide⟩ (Callback.follows_nil _)
    have hNumber := congrArg (fun result => result.2.gh.contentLength) hAlike
    simp only [Callback.call, hCall] at hNumber
    rw [List.append_nil, hZero, hOne] at hNumber
    cases hNumber
  · intro hStart
    refine ownField_of_kept ?_ ?_
    · intro rest h
      have hAlone := hCall []
      rw [List.append_nil] at hAlone
      rw [hAlone, hCall rest, atoi_append hOwn h hStart]
    · intro userId rest _
      have hType' : (s.withUserId userId).gh.httpFieldType = .contentLen := hType
      unfold onHeaderValue
      rw [hType']
      rfl

theorem referer_iff (hOwn : 0 ∉ own) (hType : s.gh.httpFieldType = .referer) :
    OwnField heap .headerValue s own ↔ s.cInfo.pType ≠ .none ∨ ¬s.TakesHostId own := by
  have hCall : ∀ (s : HttpParser) (rest : List UInt8), s.gh.httpFieldType = .referer →
      onHeaderValue heap s (own ++ rest) own.length =
        if s.cInfo.pType = .none then (0, urlParse heap (own ++ 0 :: heap.referer) s)
        else (0, s) := by
    intro s rest hType
    unfold onHeaderValue
    rw [hType]
    simp only [List.take_left]
  have hTakes : ∀ userId, (s.withUserId userId).TakesHostId (own ++ 0 :: heap.referer) ↔
      s.TakesHostId own := by
    intro userId
    rw [takesHostId_withUserId]
    refine takesHostId_congr ?_
    rw [cstr_block hOwn, cstr_eq hOwn]
  constructor
  · intro h
    by_contra hNot
    rw [not_or, not_not, not_not] at hNot
    have hKept := h.userId (by simp [hType]) (Vector.replicate 20 1) [] (Callback.follows_nil _)
    obtain ⟨i, hId⟩ := urlParse_hostId heap ((hTakes (Vector.replicate 20 1)).mpr hNot.2)
    have hType' : (s.withUserId (Vector.replicate 20 1)).gh.httpFieldType = .referer := hType
    have hPage : (s.withUserId (Vector.replicate 20 1)).cInfo.pType = .none := hNot.1
    simp only [Callback.call, hCall _ _ hType', if_pos hPage] at hKept
    exact copy_differs _ (hId.symm.trans hKept)
  · intro hOr
    refine ownField_of_kept ?_ ?_
    · intro rest _
      have hAlone := hCall s [] hType
      rw [List.append_nil] at hAlone
      rw [hAlone, hCall s rest hType]
    · intro userId rest _
      rw [hCall (s.withUserId userId) rest hType]
      split
      · rename_i hPage
        have hNot := hOr.resolve_left (not_not.mpr hPage)
        exact urlParse_userId (mt (hTakes userId).mp hNot)
      · rfl

theorem headerValue_iff (hOwn : 0 ∉ own) :
    OwnField heap .headerValue s own ↔ Callback.headerValue.Confined s own := by
  unfold Callback.Confined
  cases hType : s.gh.httpFieldType with
  | cookie => exact cookie_iff hOwn hType
  | contentLen => exact contentLen_iff hOwn hType
  | referer => exact referer_iff hOwn hType
  | host =>
    refine iff_of_true (ownField_of_kept ?_ ?_) trivial
    · intro rest _
      unfold onHeaderValue
      rw [hType]
      simp only [List.take_left, List.take_length]
    · intro userId rest _
      have hType' : (s.withUserId userId).gh.httpFieldType = .host := hType
      unfold onHeaderValue
      rw [hType']
      rfl
  | other =>
    refine iff_of_true (ownField_of_kept ?_ ?_) trivial
    · intro rest _
      unfold onHeaderValue
      rw [hType]
    · intro userId rest _
      have hType' : (s.withUserId userId).gh.httpFieldType = .other := hType
      unfold onHeaderValue
      rw [hType']
      rfl

/-- A callback depends on its own field only, exactly when the field is confined. -/
theorem own_field_iff (heap : Heap) (callback : Callback) (s : HttpParser) (own : List UInt8)
    (hOwn : 0 ∉ own) : OwnField heap callback s own ↔ callback.Confined s own := by
  cases callback with
  | url => exact url_iff hOwn
  | headerField => exact headerField_iff hOwn
  | headerValue => exact headerValue_iff hOwn

/-- The parser of `processhttp` behind the name of a header of the type. -/
def parserAt (httpFieldType : FieldType) : HttpParser where
  cInfo := ⟨zeros 20, zeros 20, .none, zeros 52, zeros 512⟩
  getTest := zeros 512
  gh := ⟨httpFieldType, ⟨⟨0, 0⟩, ⟨0, 0⟩, ⟨0, 0⟩, ⟨0, 0⟩, ⟨0, 0⟩⟩,
    0, zeros 4696⟩

/-- The name of a Cookie. -/
theorem own_field_iff_cookie :
    OwnField ⟨[], [], 0⟩ .headerField (parserAt .other) (literal "Cookie") :=
  (own_field_iff ⟨[], [], 0⟩ .headerField (parserAt .other) (literal "Cookie") (by decide)).mpr
    (show ∀ n ∈ fieldNames, n.1 <+: literal "Cookie" → n.1 = literal "Cookie" by decide)

/-- A Cookie without an id takes one from the body of the request. -/
theorem cookie_takes_body :
    ¬∀ (heap : Heap) (callback : Callback) (s : HttpParser) (own : List UInt8), 0 ∉ own →
      OwnField heap callback s own := by
  intro h
  have hOwn := h ⟨[], [], 0⟩ .headerValue (parserAt .cookie) (literal "a=1") (by decide)
  have hAlike := hOwn.alike (literal "\r\n\r\n; id=7;") (literal "\r\n\r\n")
    ⟨by decide, by decide⟩ ⟨by decide, by decide⟩
  have hFirst := congrArg (fun result => firstByte result.2.cInfo.userId) hAlike
  revert hFirst
  decide

end Shutter.Http
