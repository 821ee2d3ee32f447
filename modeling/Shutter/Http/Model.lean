import Shutter.Acsm.Table
import Shutter.Library.Occurrence

/-! The callbacks of `http_parse.c` for the url and the headers of a request, with `urlparser.c`.
A callback gets a pointer into the request and a length.  The pointer is the list of the bytes from
it to the end of the request, and more than the first `length` of them can be read. -/

namespace Shutter.Http

open Shutter.Library (occurrence)
open Shutter.Acsm (ascii cstr)

/-! ### The string functions -/

/-- The bytes of a string literal. -/
def literal (text : String) : List UInt8 := ascii text.toList

/-- `strstr(s, needle) - s`. -/
def strstr (s needle : List UInt8) : Option Nat := occurrence needle (cstr s)

/-- `strchr(s, c) - s`. -/
def strchr (s : List UInt8) (c : UInt8) : Option Nat := strstr s [c]

/-- `!strncmp(s, name, strlen(name))`. -/
def startsWith (s name : List UInt8) : Bool := name.isPrefixOf (cstr s)

def isspace (c : UInt8) : Bool := c = 32 ∨ (9 ≤ c ∧ c ≤ 13)

def isdigit (c : UInt8) : Bool := 48 ≤ c ∧ c ≤ 57

/-- The conversion to `int`. -/
def toInt32 (n : Int) : Int := Int.bmod n 4294967296

/-- The number at the start of a string, as `strtol` reads it: at the limits of a `long` it
stops. -/
def strtol (negative : Bool) (s : List UInt8) : Int :=
  let n : Nat := (s.takeWhile isdigit).foldl (fun n c => 10 * n + (c.toNat - 48)) 0
  if negative then max (-9223372036854775808) (-n) else min 9223372036854775807 n

def atoi (s : List UInt8) : Int :=
  match (cstr s).dropWhile isspace with
  | [] => 0
  | c :: s =>
    toInt32 (if c = 45 then strtol true s
      else if c = 43 then strtol false s
      else strtol false (c :: s))

/-- The array with the bytes from index `i` on.  Bytes behind its end are outside it. -/
def write {n : Nat} (a : Vector UInt8 n) (i : Nat) (bytes : List UInt8) : Vector UInt8 n :=
  Vector.ofFn fun k => if i ≤ k.val then (bytes[k.val - i]?).getD a[k] else a[k]

/-- `memcpy(a, s, len)` and `a[len] = 0`. -/
def copy {n : Nat} (a : Vector UInt8 n) (s : List UInt8) (len : Nat) : Vector UInt8 n :=
  write (write a 0 (s.take len)) len [0]

def zeros (n : Nat) : Vector UInt8 n := Vector.replicate n 0

/-! ### The data -/

/-- The values of `p_type` that `_page_type_` returns. -/
inductive PageType where
  | none
  | status
  | note
  | comment
  | photo
  | mediaSet
  | addFriend
  | editNote
  | uploadPhoto
  | share
  | like
  | chat
  deriving DecidableEq

/-- The values of `http_field_type`. -/
inductive FieldType where
  | other
  | host
  | cookie
  | contentLen
  | referer
  deriving DecidableEq

/-- A `connection_info` without the `comment`, which the body only sets. -/
structure ConnectionInfo where
  userId : Vector UInt8 20
  sId : Vector UInt8 20
  pType : PageType
  rId : Vector UInt8 52
  url : Vector UInt8 512
  deriving DecidableEq

structure URLGroup where
  start : Nat
  stop : Nat
  deriving DecidableEq

structure URL where
  scheme : URLGroup
  authority : URLGroup
  path : URLGroup
  query : URLGroup
  fragment : URLGroup
  deriving DecidableEq

/-- What the callbacks for the url and the headers use of a `global_http`.  `url` is the array with
`cookie` and `content`, the two behind it. -/
structure GlobalHttp where
  httpFieldType : FieldType
  storage : URL
  contentLength : Int
  url : Vector UInt8 4696
  deriving DecidableEq

/-- What the callbacks use of an `http_parser`. -/
structure HttpParser where
  cInfo : ConnectionInfo
  getTest : Vector UInt8 512
  gh : GlobalHttp
  deriving DecidableEq

/-- The bytes behind the blocks that `readURLField` and the Referer branch allocate, and the address
of the url that is parsed. -/
structure Heap where
  path : List UInt8
  referer : List UInt8
  url : Nat

/-! ### The url -/

/-- The number of bytes before the first of some bytes, or before the end. -/
def span (s : List UInt8) (stops : List UInt8) : Nat := (s.takeWhile (· ∉ stops)).length

/-- `parseURL`, with the groups in the order of `parseURLField`. -/
def parseURL (url : List UInt8) (storage : URL) : URL :=
  let url := cstr url
  if url = [] then storage
  else
    let colon := span url (literal ":/?#")
    let scheme : URLGroup := ⟨0, if url[colon]? = some 58 then colon else 0⟩
    let start := if url[colon]? = some 58 then colon + 1 else 0
    let authority : URLGroup :=
      if url[start]? = some 47 ∧ url[start + 1]? = some 47 then
        ⟨start + 2, start + 2 + span (url.drop (start + 2)) (literal "/?#")⟩
      else ⟨start, start⟩
    let path : URLGroup :=
      ⟨authority.stop, authority.stop + span (url.drop authority.stop) (literal "?#")⟩
    let query : URLGroup :=
      if url[path.stop]? = some 63 then
        ⟨path.stop + 1, path.stop + 1 + span (url.drop (path.stop + 1)) (literal "#")⟩
      else ⟨path.stop, path.stop⟩
    let fragment : URLGroup :=
      if url[query.stop]? = some 35 then ⟨query.stop + 1, url.length⟩ else
        ⟨query.stop, query.stop⟩
    { scheme, authority, path, query, fragment }

/-- `readURLField`, without the zero byte at the end. -/
def readURLField (url : List UInt8) (field : URLGroup) : List UInt8 :=
  if field.stop ≤ field.start then [] else (url.drop field.start).take (field.stop - field.start)

/-- `_page_type_`. -/
def pageType (path : List UInt8) : PageType :=
  let has (text : String) : Bool := (strstr path (literal text)).isSome
  if has "like" ∧ ¬has "showlike" then .like
  else if has "blog/" then .note
  else if has "NewEntry.do" then .editNote
  else if has "album-create-new" then .mediaSet
  else if has "upload/" then .uploadPhoto
  else if has ".jpg" then .photo
  else if has "addfollow" ∨ has "friend.do" then .addFriend
  else if has "reply" ∨ has "comment" ∨ has "Comment" then .comment
  else if has "status" then .status
  else if has "share/popup.do" ∨ has "share/submit.do" ∨ has "update.do" ∨
    has "share/ajax.do" then
    .share
  else if has "muc_chat" then .chat
  else .none

/-- `(int) (strchr(url + i, '&') - (url + i))`, where `strchr` can return the null pointer. -/
def untilAmpersand (heap : Heap) (url : List UInt8) (i : Nat) : Int :=
  match strchr (url.drop i) 38 with
  | some len => toInt32 len
  | none => toInt32 (-((heap.url + i : Nat) : Int))

/-- The branch of `_url_parse` for a `NOTE`. -/
def noteIds (path : List UInt8) (c : ConnectionInfo) : ConnectionInfo :=
  let c := if (strstr path (literal "blogs/")).isSome then { c with pType := .none } else c
  match strstr path (literal "blog/") with
  | none => c
  | some i =>
    let c := { c with sId := copy c.sId (path.drop (i + 5)) 9 }
    match strstr (path.drop (i + 6)) (literal "/") with
    | none => c
    | some j => { c with rId := copy c.rId (path.drop (i + 6 + j + 1)) 9 }

/-- The field at `i` up to the next `&`, if it has a length below `limit`. -/
def copyField {n : Nat} (heap : Heap) (a : Vector UInt8 n) (url : List UInt8) (i : Nat)
    (limit : Int) : Vector UInt8 n :=
  let len := untilAmpersand heap url i
  if 0 < len ∧ len < limit then copy a (url.drop i) len.toNat else write a 0 [0]

/-- The branch for a `LIKE`. -/
def likeIds (heap : Heap) (url : List UInt8) (c : ConnectionInfo) : ConnectionInfo :=
  let c := match strstr url (literal "_") with
    | none => c
    | some i => { c with rId := copyField heap c.rId url (i + 1) 52 }
  match strstr url (literal "owner") with
  | none => c
  | some i => { c with sId := copyField heap c.sId url (i + 5) 20 }

/-- The branch for an `UPLOAD_PHOTO`. -/
def uploadIds (url : List UInt8) (c : ConnectionInfo) : ConnectionInfo :=
  match strstr url (literal "hostid=") with
  | none => c
  | some i => { c with userId := copy c.userId (url.drop (i + 7)) 9 }

/-- The page type of a url: the one that is known, or that of the url. -/
def pageTypeOf (c : ConnectionInfo) (url : List UInt8) : PageType :=
  if c.pType = .none then pageType url else c.pType

/-- The groups of the url, with the path behind its slash. -/
def urlGroups (url : List UInt8) (storage : URL) : URL :=
  let storage := parseURL url storage
  { storage with path := { storage.path with start := storage.path.start + 1 } }

/-- `_url_parse`, for the memory from the url on. -/
def urlParse (heap : Heap) (url : List UInt8) (s : HttpParser) : HttpParser :=
  let storage := urlGroups url s.gh.storage
  let s := { s with gh := { s.gh with storage } }
  if storage.path.start = storage.path.stop then s
  else
    let path := readURLField url storage.path ++ 0 :: heap.path
    let c := { s.cInfo with pType := pageTypeOf s.cInfo url }
    match c.pType with
    | .note => { s with cInfo := noteIds path c }
    | .like => { s with cInfo := likeIds heap url c }
    | .uploadPhoto => { s with cInfo := uploadIds url c }
    | _ => { s with cInfo := c }

/-! ### The callbacks -/

/-- What `on_url` puts into `GET_test`: the bytes up to two places before `HTTP/1.1`. -/
def getTest (url : List UInt8) : Vector UInt8 512 :=
  match strstr url (literal "HTTP/1.1") with
  | none => zeros 512
  | some i => write (zeros 512) 0 (url.take (i - 1))

/-- The parser with the arrays that `on_url` writes. -/
def HttpParser.withUrl (s : HttpParser) (url : Vector UInt8 4696) (getTest : Vector UInt8 512) :
    HttpParser :=
  { s with gh := { s.gh with url }, getTest }

def onUrl (heap : Heap) (s : HttpParser) (url : List UInt8) (length : Nat) : Int × HttpParser :=
  if length > 300 ∨ length < 2 then (-1, s)
  else
    let copied := copy s.gh.url url length
    (0, urlParse heap copied.toList (s.withUrl copied (getTest url)))

/-- The names of `_header_field_type`, in its order. -/
def fieldNames : List (List UInt8 × FieldType) :=
  [(literal "Cookie", .cookie), (literal "Host", .host), (literal "Content-Length", .contentLen),
   (literal "Referer", .referer)]

/-- `_header_field_type`. -/
def headerFieldType (name : List UInt8) : FieldType :=
  ((fieldNames.find? fun n => startsWith name n.1).map Prod.snd).getD .other

def onHeaderField (s : HttpParser) (name : List UInt8) (_length : Nat) : Int × HttpParser :=
  (0, { s with gh := { s.gh with httpFieldType := headerFieldType name } })

/-- `user_id[0]`, which is zero before an id is known. -/
def firstByte (userId : Vector UInt8 20) : UInt8 := userId[0]

/-- What the branch of `on_header_value` for a `COOKIE` does behind `; id=`. -/
def idBefore (userId : Vector UInt8 20) (id : List UInt8) : Vector UInt8 20 :=
  match strchr id 59 with
  | none => userId
  | some len => if 0 < len ∧ len < 20 then copy userId id len else write userId 0 [0]

/-- The branch of `on_header_value` for a `COOKIE`. -/
def cookieId (userId : Vector UInt8 20) (value : List UInt8) : Vector UInt8 20 :=
  if firstByte userId = 0 then
    match strstr value (literal "; id=") with
    | none => userId
    | some i => idBefore userId (value.drop (i + 5))
  else userId

def onHeaderValue (heap : Heap) (s : HttpParser) (value : List UInt8) (length : Nat) :
    Int × HttpParser :=
  match s.gh.httpFieldType with
  | .host =>
    let host := cstr (value.take length)
    let url := literal "http://" ++ host ++ cstr s.getTest.toList
    (0, { s with cInfo := { s.cInfo with url := write (zeros 512) 0 url } })
  | .cookie => (0, { s with cInfo := { s.cInfo with userId := cookieId s.cInfo.userId value } })
  | .contentLen => (0, { s with gh := { s.gh with contentLength := atoi value } })
  | .referer =>
    if s.cInfo.pType = .none then (0, urlParse heap (value.take length ++ 0 :: heap.referer) s)
    else (0, s)
  | .other => (0, s)

end Shutter.Http
