import Shutter.Http.Field
import Shutter.Library.CString
import Shutter.Library.Run

/-! The writes of the callbacks of `http_parse.c`, with the callback for the body.  Each write is
checked against its array, and the callback fails at the first one outside.  `qs_scanvalue` is any
function that writes to the array it gets. -/

namespace Shutter.Http

open Shutter.Library (occurrence_le)
open Shutter.Acsm (cstr)

/-- The extraction of a request: `comment` is the rest of the `connection_info`. -/
structure Extraction where
  parser : HttpParser
  comment : Vector UInt8 10000

/-- `qs_scanvalue`, with the array it writes to. -/
abbrev QsScanvalue := (n : Nat) → (key qs : List UInt8) → Vector UInt8 n → Vector UInt8 n

/-- The bytes that the blocks of `on_body` have when they are allocated, and those behind them. -/
structure Blocks where
  title : Vector UInt8 100
  name : Vector UInt8 30
  behind : List UInt8

/-! ### Checked writes -/

/-- `memcpy(a + i, bytes, n)`. -/
def memcpy {n : Nat} (a : Vector UInt8 n) (i : Nat) (bytes : List UInt8) :
    Option (Vector UInt8 n) :=
  if i + bytes.length ≤ n then some (write a i bytes) else none

/-- `memcpy(a, s, len)` and `a[len] = 0`. -/
def copyWithin {n : Nat} (a : Vector UInt8 n) (s : List UInt8) (len : Nat) :
    Option (Vector UInt8 n) :=
  if len < n then some (copy a s len) else none

/-- `strcat(a, s)`.  Without a terminator the copy begins behind the array. -/
def strcatWithin {n : Nat} (a : Vector UInt8 n) (s : List UInt8) : Option (Vector UInt8 n) :=
  memcpy a (cstr a.toList).length (s ++ [0])

/-! ### The url -/

/-- The branch of `_url_parse` for a `NOTE`. -/
def noteIdsWithin (path : List UInt8) (c : ConnectionInfo) : Option ConnectionInfo :=
  let c := if (strstr path (literal "blogs/")).isSome then { c with pType := .none } else c
  match strstr path (literal "blog/") with
  | none => some c
  | some i => do
    let sId ← copyWithin c.sId (path.drop (i + 5)) 9
    let c := { c with sId }
    match strstr (path.drop (i + 6)) (literal "/") with
    | none => some c
    | some j => do
      let rId ← copyWithin c.rId (path.drop (i + 6 + j + 1)) 9
      some { c with rId }

/-- The field at `i` up to the next `&`, if it has a length below `limit`. -/
def copyFieldWithin {n : Nat} (heap : Heap) (a : Vector UInt8 n) (url : List UInt8) (i : Nat)
    (limit : Int) : Option (Vector UInt8 n) :=
  let len := untilAmpersand heap url i
  if 0 < len ∧ len < limit then copyWithin a (url.drop i) len.toNat else memcpy a 0 [0]

/-- The branch for a `LIKE`. -/
def likeIdsWithin (heap : Heap) (url : List UInt8) (c : ConnectionInfo) :
    Option ConnectionInfo := do
  let c ← match strstr url (literal "_") with
    | none => some c
    | some i => do
      let rId ← copyFieldWithin heap c.rId url (i + 1) 52
      some { c with rId }
  match strstr url (literal "owner") with
  | none => some c
  | some i => do
    let sId ← copyFieldWithin heap c.sId url (i + 5) 20
    some { c with sId }

/-- The branch for an `UPLOAD_PHOTO`. -/
def uploadIdsWithin (url : List UInt8) (c : ConnectionInfo) : Option ConnectionInfo :=
  match strstr url (literal "hostid=") with
  | none => some c
  | some i => do
    let userId ← copyWithin c.userId (url.drop (i + 7)) 9
    some { c with userId }

/-- `_url_parse`. -/
def urlParseWithin (heap : Heap) (url : List UInt8) (s : HttpParser) : Option HttpParser :=
  let storage := urlGroups url s.gh.storage
  let s := { s with gh := { s.gh with storage } }
  if storage.path.start = storage.path.stop then some s
  else
    let path := readURLField url storage.path ++ 0 :: heap.path
    let c := { s.cInfo with pType := pageTypeOf s.cInfo url }
    match c.pType with
    | .note => do
      let cInfo ← noteIdsWithin path c
      some { s with cInfo }
    | .like => do
      let cInfo ← likeIdsWithin heap url c
      some { s with cInfo }
    | .uploadPhoto => do
      let cInfo ← uploadIdsWithin url c
      some { s with cInfo }
    | _ => some { s with cInfo := c }

/-- The loop of `on_url` for `GET_test`. -/
def getTestWithin (url : List UInt8) : Option (Vector UInt8 512) :=
  match strstr url (literal "HTTP/1.1") with
  | none => some (zeros 512)
  | some i => memcpy (zeros 512) 0 (url.take (i - 1))

/-- `on_url`: the array has 300 of the bytes of `url`. -/
def onUrlWithin (heap : Heap) (s : HttpParser) (url : List UInt8) (length : Nat) :
    Option HttpParser :=
  if length > 300 ∨ length < 2 then some s
  else if length < 300 then do
    let copied := copy s.gh.url url length
    let getTest ← getTestWithin url
    urlParseWithin heap copied.toList (s.withUrl copied getTest)
  else none

/-! ### The headers -/

/-- What the branch of `on_header_value` for a `COOKIE` does behind `; id=`. -/
def idBeforeWithin (userId : Vector UInt8 20) (id : List UInt8) : Option (Vector UInt8 20) :=
  match strchr id 59 with
  | none => some userId
  | some len => if 0 < len ∧ len < 20 then copyWithin userId id len else memcpy userId 0 [0]

/-- The branch for a `COOKIE`. -/
def cookieIdWithin (userId : Vector UInt8 20) (value : List UInt8) : Option (Vector UInt8 20) :=
  if firstByte userId = 0 then
    match strstr value (literal "; id=") with
    | none => some userId
    | some i => idBeforeWithin userId (value.drop (i + 5))
  else some userId

/-- The branch for a `HOST`. -/
def hostUrlWithin (getTest : Vector UInt8 512) (host : List UInt8) : Option (Vector UInt8 512) := do
  let url ← strcatWithin (zeros 512) (literal "http://")
  let url ← strcatWithin url host
  strcatWithin url (cstr getTest.toList)

def onHeaderValueWithin (heap : Heap) (s : HttpParser) (value : List UInt8) (length : Nat) :
    Option HttpParser :=
  match s.gh.httpFieldType with
  | .host => do
    let url ← hostUrlWithin s.getTest (cstr (value.take length))
    some { s with cInfo := { s.cInfo with url } }
  | .cookie => do
    let userId ← cookieIdWithin s.cInfo.userId value
    some { s with cInfo := { s.cInfo with userId } }
  | .contentLen => some { s with gh := { s.gh with contentLength := atoi value } }
  | .referer =>
    if s.cInfo.pType = .none then urlParseWithin heap (value.take length ++ 0 :: heap.referer) s
    else some s
  | .other => some s

/-! ### The body -/

/-- `qs_scanvalue` of some keys, one behind the other, into the same array. -/
def scanAll (scan : QsScanvalue) {n : Nat} (body : List UInt8) (keys : List String)
    (a : Vector UInt8 n) : Vector UInt8 n :=
  keys.foldl (fun a key => scan n (literal key) body a) a

/-- The branch of `on_body` for a `CHAT`: the comment. -/
def chatComment (body : List UInt8) (comment : Vector UInt8 10000) :
    Option (Vector UInt8 10000) :=
  match strstr body (literal "<font>") with
  | none => some comment
  | some i =>
    match strchr (body.drop (i + 6)) 60 with
    | none => some comment
    | some len =>
      if 0 < len ∧ len < 1000 then copyWithin comment (body.drop (i + 6)) len
      else memcpy comment 0 [0]

/-- The branch for a `CHAT`: the receiver, from the second byte behind `to=` on. -/
def chatId (body : List UInt8) (sId : Vector UInt8 20) : Option (Vector UInt8 20) :=
  match strstr body (literal "to=") with
  | none => some sId
  | some i =>
    match strchr (body.drop (i + 4)) 64 with
    | none => some sId
    | some len =>
      if 0 < len ∧ len < 20 then copyWithin sId (body.drop (i + 4)) len else memcpy sId 0 [0]

/-- The branch for a `SHARE`: the comment. -/
def shareComment (post : List UInt8) (comment : Vector UInt8 10000) :
    Option (Vector UInt8 10000) :=
  match strstr post (literal "body\":\"") with
  | none => memcpy comment 0 [0]
  | some p =>
    match strstr (post.drop (p + 7)) (literal "\",\"") with
    | none => memcpy comment 0 [0]
    | some len => copyWithin comment (post.drop (p + 7)) len

/-- The branch for a `SHARE`: the resource. -/
def shareId (post : List UInt8) (rId : Vector UInt8 52) : Option (Vector UInt8 52) :=
  match strstr post (literal "\"id\":") with
  | none => some rId
  | some k =>
    let quoted := startsWith (post.drop (k + 5)) (literal "\"")
    let start := if quoted then k + 6 else k + 5
    match strstr post (if quoted then literal "\",\"owner" else literal ",\"owner") with
    | none => some rId
    | some stop =>
      if start < stop ∧ stop ≤ start + 20 then copyWithin rId (post.drop start) (stop - start)
      else some rId

/-- The decoded `post` of a `SHARE`, in its block. -/
def sharePost (scan : QsScanvalue) (blocks : Blocks) (body : List UInt8) : List UInt8 :=
  (scan 100000 (literal "post") body (zeros 100000)).toList ++ blocks.behind

/-- The string of the block for the title of an `EDIT_NOTE`. -/
def noteTitle (scan : QsScanvalue) (blocks : Blocks) (body : List UInt8) : List UInt8 :=
  cstr ((scan 100 (literal "title") body blocks.title).toList ++ blocks.behind)

/-- The string of the block for the name of a `MEDIA_SET`. -/
def mediaName (scan : QsScanvalue) (blocks : Blocks) (body : List UInt8) : List UInt8 :=
  cstr ((scan 30 (literal "name") body blocks.name).toList ++ blocks.behind)

/-- The beginning of `on_body`: the user. -/
def scanUser (scan : QsScanvalue) (c : ConnectionInfo) (body : List UInt8) : ConnectionInfo :=
  if firstByte c.userId = 0 then { c with userId := scan 20 (literal "__user") body c.userId }
  else c

/-- The branches of `on_body`. -/
def scanBody (scan : QsScanvalue) (blocks : Blocks) (s : Extraction) (body : List UInt8) :
    Option Extraction :=
  let c := s.parser.cInfo
  match c.pType with
  | .comment =>
    let comment := scanAll scan body ["c", "content", "comment", "body"] s.comment
    let rId := scanAll scan body ["entryId", "id", "source"] c.rId
    let sId := scanAll scan body ["entryOwnerId", "owner"] c.sId
    some { s with parser := { s.parser with cInfo := { c with rId, sId } }, comment }
  | .addFriend =>
    let sId := scan 20 (literal "id") body c.sId
    let rId := scan 52 (literal "pubId") body c.rId
    let comment := scan 10000 (literal "why") body s.comment
    some { s with parser := { s.parser with cInfo := { c with rId, sId } }, comment }
  | .editNote => do
    let comment ← strcatWithin (scan 10000 (literal "body") body s.comment)
      (noteTitle scan blocks body)
    some { s with comment }
  | .status => some { s with comment := scan 10000 (literal "content") body s.comment }
  | .mediaSet => do
    let comment ← strcatWithin (scan 10000 (literal "description") body s.comment)
      (mediaName scan blocks body)
    some { s with comment }
  | .uploadPhoto => some { s with comment := scan 10000 (literal "title") body s.comment }
  | .chat => do
    let comment ← chatComment body s.comment
    let sId ← chatId body c.sId
    some { s with parser := { s.parser with cInfo := { c with sId } }, comment }
  | .share =>
    if startsWith body (literal "c=") then
      let comment := scan 10000 (literal "c") body s.comment
      let rId := scan 52 (literal "fwdId") body c.rId
      let sId := scan 20 (literal "fwdOwner") body c.sId
      some { s with parser := { s.parser with cInfo := { c with rId, sId } }, comment }
    else do
      let comment ← shareComment (sharePost scan blocks body) s.comment
      let rId ← shareId (sharePost scan blocks body) c.rId
      some { s with parser := { s.parser with cInfo := { c with rId } }, comment }
  | .none | .note | .photo | .like => some s

/-- `on_body`. -/
def onBody (scan : QsScanvalue) (blocks : Blocks) (s : Extraction) (body : List UInt8) :
    Option Extraction :=
  scanBody scan blocks
    { s with parser := { s.parser with cInfo := scanUser scan s.parser.cInfo body } } body

/-! ### Requests -/

/-- A call of `http_parser_execute` for a range of the request: `offset` and `length`, with what the
heap has for the call. -/
inductive Call
  | url (heap : Heap) (offset length : Nat)
  | headerField (offset length : Nat)
  | headerValue (heap : Heap) (offset length : Nat)
  | body (blocks : Blocks) (offset length : Nat)

/-- The callback of a call, for the memory from the request on. -/
def Call.run (scan : QsScanvalue) (memory : List UInt8) (s : Extraction) : Call →
    Option Extraction
  | .url heap offset length => do
    let parser ← onUrlWithin heap s.parser (memory.drop offset) length
    some { s with parser }
  | .headerField offset length =>
    some { s with parser := (onHeaderField s.parser (memory.drop offset) length).2 }
  | .headerValue heap offset length => do
    let parser ← onHeaderValueWithin heap s.parser (memory.drop offset) length
    some { s with parser }
  | .body blocks offset _ => onBody scan blocks s (memory.drop offset)

/-- The strings have room in `n` bytes, one behind the other, with a terminator. -/
def HasRoom (n : Nat) (strings : List (List UInt8)) : Prop := strings.flatten.length < n

instance (n : Nat) (strings : List (List UInt8)) : Decidable (HasRoom n strings) :=
  inferInstanceAs (Decidable (strings.flatten.length < n))

/-- The bytes up to two places before `HTTP/1.1` are at most 512. -/
def GetTestFits (url : List UInt8) : Prop :=
  ∀ i, strstr url (literal "HTTP/1.1") = some i → i ≤ 513

/-- The condition on a call. -/
def Call.Fits (scan : QsScanvalue) (memory : List UInt8) (s : Extraction) : Call → Prop
  | .url _ offset length =>
      2 ≤ length → length ≠ 300 ∧ (length < 300 → GetTestFits (memory.drop offset))
  | .headerField _ _ => True
  | .headerValue _ offset length => s.parser.gh.httpFieldType = .host →
      HasRoom 512 [literal "http://", cstr ((memory.drop offset).take length),
        cstr s.parser.getTest.toList]
  | .body blocks offset _ =>
    let body := memory.drop offset
    match s.parser.cInfo.pType with
    | .editNote => HasRoom 10000
        [cstr (scan 10000 (literal "body") body s.comment).toList, noteTitle scan blocks body]
    | .mediaSet => HasRoom 10000
        [cstr (scan 10000 (literal "description") body s.comment).toList,
          mediaName scan blocks body]
    | .share => ¬startsWith body (literal "c=") →
        ∀ p, strstr (sharePost scan blocks body) (literal "body\":\"") = some p →
          ∀ len, strstr ((sharePost scan blocks body).drop (p + 7))
            (literal "\",\"") = some len →
            len < 10000
    | _ => True

/-! ### The url -/

variable {n : Nat} {heap : Heap}

theorem memcpy_eq {a : Vector UInt8 n} {i : Nat} {bytes : List UInt8} (h : i + bytes.length ≤ n) :
    memcpy a i bytes = some (write a i bytes) := if_pos h

theorem copyWithin_eq {a : Vector UInt8 n} {s : List UInt8} {len : Nat} (h : len < n) :
    copyWithin a s len = some (copy a s len) := if_pos h

theorem noteIdsWithin_eq (path : List UInt8) (c : ConnectionInfo) :
    noteIdsWithin path c = some (noteIds path c) := by
  unfold noteIdsWithin noteIds
  cases strstr path (literal "blog/") with
  | none => rfl
  | some i =>
    simp only [copyWithin_eq (by decide : 9 < 20), copyWithin_eq (by decide : 9 < 52),
      Option.bind_eq_bind, Option.bind_some]
    cases strstr (path.drop (i + 6)) (literal "/") <;> rfl

theorem copyFieldWithin_eq (a : Vector UInt8 n) (url : List UInt8) (i : Nat) {limit : Int}
    (hLimit : limit ≤ n) (hSize : 0 < n) :
    copyFieldWithin heap a url i limit = some (copyField heap a url i limit) := by
  unfold copyFieldWithin copyField
  simp only
  split
  next hLen => exact copyWithin_eq (by omega)
  next => exact memcpy_eq hSize

theorem likeIdsWithin_eq (url : List UInt8) (c : ConnectionInfo) :
    likeIdsWithin heap url c = some (likeIds heap url c) := by
  unfold likeIdsWithin likeIds
  simp only [copyFieldWithin_eq _ _ _ (by decide : (52 : Int) ≤ (52 : Nat)) (by decide : 0 < 52),
    copyFieldWithin_eq _ _ _ (by decide : (20 : Int) ≤ (20 : Nat)) (by decide : 0 < 20),
    Option.bind_eq_bind, Option.bind_some]
  cases strstr url (literal "_") <;> cases strstr url (literal "owner") <;> rfl

theorem uploadIdsWithin_eq (url : List UInt8) (c : ConnectionInfo) :
    uploadIdsWithin url c = some (uploadIds url c) := by
  unfold uploadIdsWithin uploadIds
  simp only [copyWithin_eq (by decide : 9 < 20), Option.bind_eq_bind, Option.bind_some]
  cases strstr url (literal "hostid=") <;> rfl

/-- All writes of `_url_parse` are inside. -/
theorem urlParseWithin_eq (url : List UInt8) (s : HttpParser) :
    urlParseWithin heap url s = some (urlParse heap url s) := by
  unfold urlParseWithin urlParse
  simp only [noteIdsWithin_eq, likeIdsWithin_eq, uploadIdsWithin_eq, Option.bind_eq_bind,
    Option.bind_some]
  split
  · rfl
  · cases pageTypeOf s.cInfo url <;> rfl

theorem getTestWithin_spec (url : List UInt8) :
    (GetTestFits url → getTestWithin url = some (getTest url)) ∧
      (¬GetTestFits url → getTestWithin url = none) := by
  unfold getTestWithin getTest GetTestFits
  cases hFound : strstr url (literal "HTTP/1.1") with
  | none => simp
  | some i =>
    have hLe := occurrence_le hFound
    have hLength : (url.take (i - 1)).length = i - 1 := by
      have hCut : (cstr url).length ≤ url.length := (List.takeWhile_sublist _).length_le
      rw [List.length_take]
      omega
    simp only [Option.some.injEq, forall_eq']
    exact ⟨fun h => memcpy_eq (by omega), fun h => if_neg (by omega)⟩

theorem onUrlWithin_spec (heap : Heap) (s : HttpParser) (url : List UInt8) (length : Nat) :
    ((2 ≤ length → length ≠ 300 ∧ (length < 300 → GetTestFits url)) →
        onUrlWithin heap s url length = some (onUrl heap s url length).2) ∧
      (¬(2 ≤ length → length ≠ 300 ∧ (length < 300 → GetTestFits url)) →
        onUrlWithin heap s url length = none) := by
  obtain ⟨hFits, hFails⟩ := getTestWithin_spec url
  unfold onUrlWithin onUrl
  constructor
  · intro h
    by_cases hCut : length > 300 ∨ length < 2
    · rw [if_pos hCut, if_pos hCut]
    · obtain ⟨hNe, hGet⟩ := h (by omega)
      rw [if_neg hCut, if_neg hCut, if_pos (by omega), hFits (hGet (by omega)), Option.bind_eq_bind,
        Option.bind_some, urlParseWithin_eq]
  · intro h
    obtain ⟨hTwo, hNot⟩ := Classical.not_imp.mp h
    by_cases hLong : 300 < length
    · exact absurd ⟨by omega, by omega⟩ hNot
    · rw [if_neg (by omega)]
      by_cases hEq : length = 300
      · rw [if_neg (by omega)]
      · rw [if_pos (by omega), hFails fun hGet => hNot ⟨hEq, fun _ => hGet⟩]
        rfl

/-! ### The headers -/

theorem cookieIdWithin_eq (userId : Vector UInt8 20) (value : List UInt8) :
    cookieIdWithin userId value = some (cookieId userId value) := by
  have hBefore : ∀ id, idBeforeWithin userId id = some (idBefore userId id) := by
    intro id
    unfold idBeforeWithin idBefore
    cases strchr id 59 with
    | none => rfl
    | some len =>
      simp only
      split
      next hLen => exact copyWithin_eq hLen.2
      next => exact memcpy_eq (by decide)
  unfold cookieIdWithin cookieId
  simp only [hBefore]
  cases strstr value (literal "; id=") <;> split <;> rfl

theorem zero_not_mem_cstr (s : List UInt8) : 0 ∉ cstr s := fun hMem => by
  have hNe := List.mem_takeWhile_imp hMem
  simp at hNe

/-- The array with a string at its front and zeros behind it. -/
def filled (n : Nat) (s : List UInt8) : Vector UInt8 n := write (zeros n) 0 s

theorem getElem_filled {s : List UInt8} {k : Nat} (hk : k < n) :
    (filled n s)[k] = s[k]?.getD 0 := by
  simp [filled, write, zeros]

theorem toList_filled {s : List UInt8} (h : s.length ≤ n) :
    (filled n s).toList = s ++ List.replicate (n - s.length) 0 := by
  apply List.ext_getElem
  · simp [h]
  · intro k hk hk'
    rw [Vector.getElem_toList, getElem_filled, List.getElem_append]
    split
    next hLt => rw [List.getElem?_eq_getElem hLt, Option.getD_some]
    next hGe => rw [List.getElem?_eq_none (Nat.not_lt.mp hGe), List.getElem_replicate]; rfl

theorem cstr_filled {s : List UInt8} (hs : 0 ∉ s) (h : s.length ≤ n) :
    cstr (filled n s).toList = s := by
  have hPos : ∀ b ∈ s, decide (b ≠ 0) = true := fun b hb =>
    decide_eq_true (ne_of_mem_of_not_mem hb hs)
  rw [toList_filled h, cstr, List.takeWhile_append_of_pos hPos]
  cases n - s.length with
  | zero => rw [List.replicate_zero, List.takeWhile_nil, List.append_nil]
  | succ k => simp [List.replicate_succ]

/-- An appended string goes behind the first one. -/
theorem write_filled (s t : List UInt8) :
    write (filled n s) s.length (t ++ [0]) = filled n (s ++ t) := by
  ext k hk
  rw [write_getElem _ _ _ hk, getElem_filled, getElem_filled]
  split
  next hGe =>
    rw [List.getElem?_append_right hGe, List.getElem?_eq_none hGe]
    rcases Nat.lt_trichotomy (k - s.length) t.length with hLt | hEq | hGt
    · rw [List.getElem?_append_left hLt, List.getElem?_eq_getElem hLt]
      rfl
    · rw [List.getElem?_append_right hEq.ge, hEq, Nat.sub_self,
        List.getElem?_eq_none (l := t) le_rfl]
      rfl
    · rw [List.getElem?_eq_none (by simp; omega), List.getElem?_eq_none (by omega)]
      rfl
  next hLt => rw [List.getElem?_append_left (Nat.not_le.mp hLt)]

theorem strcatWithin_filled {s t : List UInt8} (hs : 0 ∉ s) (h : s.length ≤ n) :
    strcatWithin (filled n s) t =
      if s.length + t.length < n then some (filled n (s ++ t)) else none := by
  unfold strcatWithin memcpy
  rw [cstr_filled hs h, List.length_append, List.length_singleton, write_filled]
  split
  next hLe => rw [if_pos (by omega)]
  next hLe => rw [if_neg (by omega)]

/-- The strings of the url go behind one another. -/
theorem hostUrlWithin_eq (getTest : Vector UInt8 512) {host : List UInt8} (hHost : 0 ∉ host) :
    hostUrlWithin getTest host =
      if HasRoom 512 [literal "http://", host, cstr getTest.toList] then
        some (write (zeros 512) 0 (literal "http://" ++ host ++ cstr getTest.toList))
      else none := by
  have hHttp : (0 : UInt8) ∉ literal "http://" := by decide
  have hLength : (literal "http://").length = 7 := rfl
  have hBoth : 0 ∉ literal "http://" ++ host := by simp [hHttp, hHost]
  have hStart := strcatWithin_filled (n := 512) (s := []) (t := literal "http://")
    List.not_mem_nil (by decide)
  rw [if_pos (by decide), List.nil_append] at hStart
  have hZeros : filled 512 [] = zeros 512 := by
    ext k hk
    simp [filled, write]
  unfold hostUrlWithin HasRoom
  rw [← hZeros, hStart, Option.bind_eq_bind, Option.bind_some,
    strcatWithin_filled hHttp (by decide)]
  simp only [List.flatten_cons, List.flatten_nil, List.length_append, List.length_nil, hLength]
  by_cases hFirst : 7 + host.length < 512
  · rw [if_pos hFirst, Option.bind_some,
      strcatWithin_filled hBoth (by rw [List.length_append, hLength]; omega), List.length_append,
      hLength, hZeros]
    simp only [filled, Nat.add_assoc, Nat.add_zero]
  · rw [if_neg hFirst, if_neg (by omega)]
    rfl

theorem onHeaderValueWithin_spec (heap : Heap) (s : HttpParser) (value : List UInt8)
    (length : Nat) :
    ((s.gh.httpFieldType = .host → HasRoom 512
        [literal "http://", cstr (value.take length), cstr s.getTest.toList]) →
      onHeaderValueWithin heap s value length = some (onHeaderValue heap s value length).2) ∧
    (¬(s.gh.httpFieldType = .host → HasRoom 512
        [literal "http://", cstr (value.take length), cstr s.getTest.toList]) →
      onHeaderValueWithin heap s value length = none) := by
  have hHost := hostUrlWithin_eq s.getTest (zero_not_mem_cstr (value.take length))
  unfold onHeaderValueWithin onHeaderValue
  cases s.gh.httpFieldType with
  | host =>
    simp only [forall_const, hHost]
    exact ⟨fun h => by rw [if_pos h]; rfl, fun h => by rw [if_neg h]; rfl⟩
  | cookie =>
    simp only [cookieIdWithin_eq]
    exact ⟨fun _ => rfl, fun h => absurd (fun hNot => nomatch hNot) h⟩
  | referer =>
    simp only [urlParseWithin_eq]
    refine ⟨fun _ => ?_, fun h => absurd (fun hNot => nomatch hNot) h⟩
    split <;> rfl
  | contentLen => exact ⟨fun _ => rfl, fun h => absurd (fun hNot => nomatch hNot) h⟩
  | other => exact ⟨fun _ => rfl, fun h => absurd (fun hNot => nomatch hNot) h⟩

/-! ### The body -/

theorem strcatWithin_isSome (a : Vector UInt8 n) (s : List UInt8) :
    (strcatWithin a s).isSome = true ↔ HasRoom n [cstr a.toList, s] := by
  unfold strcatWithin memcpy HasRoom
  simp only [List.length_append, List.length_singleton, List.flatten_cons, List.flatten_nil,
    List.length_nil]
  split <;> simp <;> omega

theorem chatComment_isSome (body : List UInt8) (comment : Vector UInt8 10000) :
    (chatComment body comment).isSome = true := by
  unfold chatComment
  cases strstr body (literal "<font>") with
  | none => rfl
  | some i =>
    cases hLen : strchr (body.drop (i + 6)) 60 with
    | none => simp only [hLen, Option.isSome_some]
    | some len =>
      simp only [hLen]
      split
      next hShort => rw [copyWithin_eq (by omega)]; rfl
      next => rw [memcpy_eq (by decide)]; rfl

theorem chatId_isSome (body : List UInt8) (sId : Vector UInt8 20) :
    (chatId body sId).isSome = true := by
  unfold chatId
  cases strstr body (literal "to=") with
  | none => rfl
  | some i =>
    cases hLen : strchr (body.drop (i + 4)) 64 with
    | none => simp only [hLen, Option.isSome_some]
    | some len =>
      simp only [hLen]
      split
      next hShort => rw [copyWithin_eq hShort.2]; rfl
      next => rw [memcpy_eq (by decide)]; rfl

theorem shareId_isSome (post : List UInt8) (rId : Vector UInt8 52) :
    (shareId post rId).isSome = true := by
  unfold shareId
  cases strstr post (literal "\"id\":") with
  | none => rfl
  | some k =>
    simp only
    generalize strstr post _ = stop, (if startsWith (post.drop (k + 5)) _ = true then k + 6
      else k + 5) = start
    cases stop with
    | none => rfl
    | some stop =>
      simp only
      split
      next hRange => rw [copyWithin_eq (by omega)]; rfl
      next => rfl

/-- The comment of a `SHARE` is copied without a test of its length. -/
theorem shareComment_isSome (post : List UInt8) (comment : Vector UInt8 10000) :
    (shareComment post comment).isSome = true ↔
      ∀ p, strstr post (literal "body\":\"") = some p →
        ∀ len, strstr (post.drop (p + 7)) (literal "\",\"") = some len → len < 10000 := by
  have hClear : (memcpy comment 0 [0]).isSome = true := by rw [memcpy_eq (by decide)]; rfl
  unfold shareComment
  cases strstr post (literal "body\":\"") with
  | none => simp [hClear]
  | some p =>
    simp only [Option.some.injEq, forall_eq']
    cases hLen : strstr (post.drop (p + 7)) (literal "\",\"") with
    | none => simp [hClear]
    | some len =>
      simp only [Option.some.injEq, forall_eq', copyWithin]
      split <;> simp [*]

theorem isSome_bind_some {α β : Type} (o : Option α) (f : α → β) :
    (o.bind fun a => some (f a)).isSome = o.isSome := by
  cases o <;> rfl

variable {scan : QsScanvalue} {memory : List UInt8}

theorem onBody_isSome (blocks : Blocks) (s : Extraction) (offset length : Nat) :
    (onBody scan blocks s (memory.drop offset)).isSome = true ↔
      (Call.body blocks offset length).Fits scan memory s := by
  have hType : (scanUser scan s.parser.cInfo (memory.drop offset)).pType =
      s.parser.cInfo.pType := by
    unfold scanUser
    split <;> rfl
  unfold onBody Call.Fits
  simp only [← hType]
  generalize scanUser scan s.parser.cInfo (memory.drop offset) = c
  obtain ⟨userId, sId, pType, rId, url⟩ := c
  unfold scanBody
  cases pType with
  | comment => simp
  | addFriend => simp
  | editNote => simp [isSome_bind_some, strcatWithin_isSome]
  | status => simp
  | mediaSet => simp [isSome_bind_some, strcatWithin_isSome]
  | uploadPhoto => simp
  | chat =>
    obtain ⟨comment, hComment⟩ := Option.isSome_iff_exists.mp
      (chatComment_isSome (memory.drop offset) s.comment)
    obtain ⟨sId', hId⟩ := Option.isSome_iff_exists.mp (chatId_isSome (memory.drop offset) sId)
    simp [hComment, hId]
  | share =>
    have hComment := shareComment_isSome (sharePost scan blocks (memory.drop offset)) s.comment
    obtain ⟨rId', hId⟩ := Option.isSome_iff_exists.mp
      (shareId_isSome (sharePost scan blocks (memory.drop offset)) rId)
    simp only
    split
    next hForm => simp [hForm]
    next hForm =>
      simp [hForm, hId, isSome_bind_some, hComment]
  | none => simp
  | note => simp
  | photo => simp
  | like => simp

/-- A call writes inside its arrays exactly when it fits. -/
theorem Call.run_isSome (s : Extraction) (call : Call) :
    (∃ s', call.run scan memory s = some s') ↔ call.Fits scan memory s := by
  rw [← Option.isSome_iff_exists]
  cases call with
  | url heap offset length =>
    obtain ⟨hFits, hFails⟩ := onUrlWithin_spec heap s.parser (memory.drop offset) length
    rw [Call.run, Call.Fits]
    constructor
    · intro h
      by_contra hNot
      rw [hFails hNot] at h
      cases h
    · intro h
      rw [hFits h]
      rfl
  | headerField offset length => exact ⟨fun _ => trivial, fun _ => rfl⟩
  | headerValue heap offset length =>
    obtain ⟨hFits, hFails⟩ :=
      onHeaderValueWithin_spec heap s.parser (memory.drop offset) length
    rw [Call.run, Call.Fits]
    constructor
    · intro h
      by_contra hNot
      rw [hFails hNot] at h
      cases h
    · intro h
      rw [hFits h]
      rfl
  | body blocks offset length => exact onBody_isSome blocks s offset length

/-- The calls for a request write inside their arrays exactly when each fits in the state that those
before it leave. -/
theorem request_within_iff (scan : QsScanvalue) (memory : List UInt8) (calls : List Call)
    (s : Extraction) :
    (∃ s', calls.foldlM (Call.run scan memory) s = some s') ↔
      ∀ done call rest, calls = done ++ call :: rest →
        ∀ t, done.foldlM (Call.run scan memory) s = some t → call.Fits scan memory t :=
  Library.foldlM_iff_each Call.run_isSome calls s

/-- The parser before a request. -/
def start (getTest : Vector UInt8 512) (gh : GlobalHttp) : Extraction where
  parser :=
    { cInfo := ⟨zeros 20, zeros 20, .none, zeros 52, zeros 512⟩
      getTest
      gh := { gh with httpFieldType := .other, contentLength := 0 } }
  comment := zeros 10000

/-- A request with a url of 300 bytes. -/
def longUrl : List UInt8 :=
  literal "GET /" ++ List.replicate 299 97 ++ literal " HTTP/1.1\r\n\r\n"

/-- The url of 300 bytes takes the whole array, and its terminator goes behind it. -/
theorem request_within_fails : 4 + 300 ≤ longUrl.length ∧
    ∀ (scan : QsScanvalue) (heap : Heap) (getTest : Vector UInt8 512) (gh : GlobalHttp),
      ¬∃ s', [Call.url heap 4 300].foldlM (Call.run scan longUrl) (start getTest gh)
        = some s' := by
  have hHead : (literal "GET /").length = 5 := rfl
  constructor
  · rw [longUrl, List.length_append, List.length_append, hHead, List.length_replicate]
    omega
  · rintro scan heap getTest gh ⟨s', hRun⟩
    rw [List.foldlM_cons, Call.run, onUrlWithin, if_neg (by decide), if_neg (by decide)] at hRun
    cases hRun

end Shutter.Http
