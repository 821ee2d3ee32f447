import Shutter.Library.CString
import Shutter.Rules.Decision

/-! The log records of `log-wxy.c`, and what `get_decision` writes to one.  A record is a
`struct loginfo`, whose strings are arrays, and `sendlog` joins its fields in `buf`. -/

namespace Shutter.Rules

open Shutter.Acsm Shutter.Library

/-- The four bytes of an address. -/
structure InAddr where
  b₁ : UInt8
  b₂ : UInt8
  b₃ : UInt8
  b₄ : UInt8

/-- `inet_ntoa`. -/
def inetNtoa (a : InAddr) : List UInt8 :=
  decimal a.b₁.toNat ++ [46] ++ decimal a.b₂.toNat ++ [46] ++ decimal a.b₃.toNat ++ [46] ++
    decimal a.b₄.toNat

/-- A `struct location_tuple`. -/
structure LocationTuple where
  serverport : UInt16
  serverip : InAddr
  clientport : UInt16
  clientip : InAddr

/-- What `getlogtime` formats: `yyyy-mm-dd hh:mm:ss.mmm`. -/
structure LogTime where
  bytes : List UInt8
  length_eq : bytes.length = 23
  terminated : 0 ∉ bytes

/-- A `struct loginfo`. -/
structure LogInfo where
  logtime : List UInt8
  processorid : Int
  website : List UInt8
  serverport : UInt16
  clientport : UInt16
  serverip : List UInt8
  clientip : List UInt8
  actiontype : Int
  userID : List UInt8
  resourceID : List UInt8
  originUID : List UInt8
  originRID : List UInt8
  keywords : List UInt8
  gkType : Int
  fulltext : List UInt8

/-- `initlog`. -/
def initlog (time : LogTime) (lt : LocationTuple) : Option LogInfo := do
  let logtime ← store (cleared 25) 0 time.bytes
  let website ← store (cleared 7) 0 (ascii ['r', 'e', 'n', 'r', 'e', 'n'])
  let serverip ← strcpy (cleared 32) (inetNtoa lt.serverip)
  let clientip ← strcpy (cleared 32) (inetNtoa lt.clientip)
  some
    { logtime, processorid := 43, website, serverport := lt.serverport,
      clientport := lt.clientport, serverip, clientip, actiontype := 0, userID := cleared 20,
      resourceID := cleared 20, originUID := cleared 20, originRID := cleared 20,
      keywords := cleared 300, gkType := 0, fulltext := cleared 1000 }

/-- `log_addsocialinfo`. -/
def logAddsocialinfo (log : LogInfo) (c : ConnectionInfo) : Option LogInfo := do
  let userID ← store log.userID 0 c.userId
  let resourceID ← store log.resourceID 0 c.rId
  let originUID ← store log.originUID 0 c.sId
  let fulltext ← store log.fulltext 0 c.comment
  some { log with actiontype := c.pType, userID, resourceID, originUID, fulltext }

/-- `log_set_full_text`. -/
def logSetFullText (log : LogInfo) (fulltext : List UInt8) : Option LogInfo := do
  let fulltext ← store log.fulltext 0 fulltext
  some { log with fulltext }

/-- `log_addkeyword`. -/
def logAddkeyword (log : LogInfo) (kw : List UInt8) : Option LogInfo := do
  let keywords ← strcat log.keywords kw
  some { log with keywords }

/-- `log_addkeywords`. -/
def logAddkeywords (log : LogInfo) (kw : List (List UInt8)) : Option LogInfo :=
  kw.foldlM (fun log kw => do
    let log ← logAddkeyword log kw
    logAddkeyword log [38]) log

/-- `log_set_gk_type`. -/
def logSetGkType (log : LogInfo) (gkType : Int) : LogInfo := { log with gkType }

/-- `log.keywords[strlen(log.keywords)-1]='\0'`. -/
def cutKeywords (log : LogInfo) : Option LogInfo := do
  let s ← text log.keywords
  if s = [] then none
  else do
    let keywords ← store log.keywords (s.length - 1) [0]
    some { log with keywords }

/-- `sprintf(buf+strlen(buf), "%s|", s)`, with what the format has behind the string. -/
def sprintf (buf s rest : List UInt8) : Option (List UInt8) := strcat buf (s ++ rest)

/-- The assembly of the message in `sendlog`. -/
def assemble (log : LogInfo) (buf : List UInt8) : Option (List UInt8) := do
  let buf ← sprintf buf (← text log.logtime) [124]
  let buf ← sprintf buf (decimal log.processorid) [124]
  let buf ← sprintf buf (← text log.website) [124]
  let buf ← sprintf buf (← text log.serverip) [124]
  let buf ← sprintf buf (decimal log.serverport.toNat) [124]
  let buf ← sprintf buf (← text log.clientip) [124]
  let buf ← sprintf buf (decimal log.clientport.toNat) [124]
  let buf ← sprintf buf (decimal log.actiontype) [124]
  let buf ← sprintf buf (← text log.userID) [124]
  let buf ← sprintf buf (← text log.resourceID) [124]
  let buf ← sprintf buf (← text log.originUID) [124]
  let buf ← sprintf buf (← text log.originRID) [124]
  let buf ← sprintf buf (← text log.keywords) [124]
  let buf ← sprintf buf (decimal log.gkType) [124]
  let buf ← sprintf buf (← text log.fulltext) (ascii ['|', 'e', 'n', 'd', '|'])
  copyBehind buf [10]

/-- `sendlog`, up to the connection: what it has in `buf`. -/
def sendlog (log : LogInfo) : Option (List UInt8) := assemble log (cleared 1200)

/-- What a record of `get_decision` is about: a rule of `query_rule_table_N`, the keywords found in
the url, a rule of `query_rule_table`, and a rule of the trie. -/
inductive Hit
  | monitor (fullText : List UInt8)
  | url (kw : List (List UInt8))
  | gk (fullText : List UInt8)
  | trie (pattern1 : Int)

/-- The type and the keywords of a record. -/
def logHit (log : LogInfo) (url : List UInt8) : Hit → Option LogInfo
  | .monitor fullText => logAddkeyword (logSetGkType log 4) fullText
  | .url kw => do
    let log ← logAddkeywords (logSetGkType log 3) kw
    let log ← cutKeywords log
    logAddkeyword log url
  | .gk fullText => logAddkeyword (logSetGkType log 0) fullText
  | .trie pattern1 =>
    some (logSetGkType log (if pattern1 ≠ -1 then if pattern1 % 2 = 0 then 1 else 2 else 2))

/-- A record of `get_decision`, before `sendlog`. -/
def logRecord (time : LogTime) (lt : LocationTuple) (c : ConnectionInfo) (hit : Hit) :
    Option LogInfo := do
  let log ← initlog time lt
  let log ← logAddsocialinfo log c
  let log ← logHit log c.url hit
  logSetFullText log c.comment

/-! ### Records that fit -/

/-- The strings of a request end within their arrays. -/
structure ConnectionInfo.Terminated (c : ConnectionInfo) : Prop where
  userId : 0 ∉ c.userId ∧ c.userId.length < 20
  sId : 0 ∉ c.sId ∧ c.sId.length < 20
  rId : 0 ∉ c.rId ∧ c.rId.length < 52
  comment : 0 ∉ c.comment ∧ c.comment.length < 10000
  url : 0 ∉ c.url ∧ c.url.length < 512

/-- The texts of the rules are strings, and `get_decision` logs a url with at least one keyword. -/
def Hit.Terminated : Hit → Prop
  | .monitor fullText | .gk fullText => 0 ∉ fullText
  | .url kw => kw ≠ [] ∧ ∀ k ∈ kw, 0 ∉ k
  | .trie _ => True

/-- The strings of a record end within their arrays. -/
structure LogInfo.Terminated (log : LogInfo) : Prop where
  logtime : 0 ∈ log.logtime
  website : 0 ∈ log.website
  serverip : 0 ∈ log.serverip
  clientip : 0 ∈ log.clientip
  userID : 0 ∈ log.userID
  resourceID : 0 ∈ log.resourceID
  originUID : 0 ∈ log.originUID
  originRID : 0 ∈ log.originRID
  keywords : 0 ∈ log.keywords
  fulltext : 0 ∈ log.fulltext

/-- All writes for a record are inside its arrays, its strings are terminated, and so is the
assembly of its message. -/
def LogsSafely (time : LogTime) (lt : LocationTuple) (c : ConnectionInfo) (hit : Hit) : Prop :=
  ∃ log, logRecord time lt c hit = some log ∧ log.Terminated ∧ ∃ buf, sendlog log = some buf

/-- The keywords with `&` behind each. -/
def joined (kw : List (List UInt8)) : List UInt8 := (kw.map (· ++ [38])).flatten

/-- The keywords of a record. -/
def Hit.keywords (url : List UInt8) : Hit → List UInt8
  | .monitor fullText | .gk fullText => fullText
  | .url kw => (joined kw).dropLast ++ url
  | .trie _ => []

/-- The length that the array of the keywords must have room for. -/
def Hit.room (url : List UInt8) : Hit → Nat
  | .monitor fullText | .gk fullText => fullText.length
  | .url kw => max (joined kw).length ((joined kw).length - 1 + url.length)
  | .trie _ => 0

/-- The length of the message of a record: the strings, the numbers, and 51 bytes of which neither
depends on the request. -/
def messageLength (lt : LocationTuple) (c : ConnectionInfo) (hit : Hit) : Nat :=
  51 + (inetNtoa lt.serverip).length + (decimal lt.serverport.toNat).length +
    (inetNtoa lt.clientip).length + (decimal lt.clientport.toNat).length +
    (decimal c.pType).length + c.userId.length + c.rId.length + c.sId.length +
    (hit.keywords c.url).length + c.comment.length

/-- The record and its message fit. -/
structure Fits (lt : LocationTuple) (c : ConnectionInfo) (hit : Hit) : Prop where
  rId : c.rId.length < 20
  comment : c.comment.length < 1000
  keywords : hit.room c.url < 300
  message : messageLength lt c hit < 1200

/-! ### Numbers -/

theorem zero_not_mem_ascii_repr (n : Nat) : 0 ∉ ascii n.repr.toList := by
  intro hMem
  obtain ⟨c, hc, hZero⟩ := List.mem_map.mp hMem
  rw [Nat.toList_repr] at hc
  have hDigit := Nat.isDigit_of_mem_toDigits (by decide) (by decide) hc
  obtain ⟨hLow, hHigh⟩ : 48 ≤ c.toNat ∧ c.toNat ≤ 57 := by
    simpa [Char.isDigit, UInt32.le_iff_toNat_le] using hDigit
  have hValue := congrArg UInt8.toNat hZero
  rw [Nat.toUInt8_eq, UInt8.toNat_ofNat'] at hValue
  simp at hValue
  omega

theorem zero_not_mem_decimal (n : Int) : 0 ∉ decimal n := by
  rw [decimal, Int.toString_eq_repr, Int.repr_eq_if]
  split
  · exact zero_not_mem_ascii_repr _
  · rw [String.toList_append, ascii, List.map_append, List.mem_append]
    rintro (hMem | hMem)
    · revert hMem
      decide
    · exact zero_not_mem_ascii_repr _ hMem

theorem length_decimal_byte (b : UInt8) : (decimal b.toNat).length ≤ 3 := by
  have h : ∀ n : Fin 256, (decimal (n : Nat)).length ≤ 3 := by decide +kernel
  exact h ⟨b.toNat, b.toNat_lt⟩

theorem length_inetNtoa (a : InAddr) : (inetNtoa a).length ≤ 15 := by
  have h₁ := length_decimal_byte a.b₁
  have h₂ := length_decimal_byte a.b₂
  have h₃ := length_decimal_byte a.b₃
  have h₄ := length_decimal_byte a.b₄
  simp only [inetNtoa, List.length_append, List.length_singleton]
  omega

theorem zero_not_mem_inetNtoa (a : InAddr) : 0 ∉ inetNtoa a := by
  simp [inetNtoa, zero_not_mem_decimal]

/-! ### The record -/

/-- The type of a record. -/
def Hit.gkType : Hit → Int
  | .monitor _ => 4
  | .url _ => 3
  | .gk _ => 0
  | .trie pattern1 => if pattern1 ≠ -1 then if pattern1 % 2 = 0 then 1 else 2 else 2

/-- The record when its strings fit. -/
def filledLog (time : LogTime) (lt : LocationTuple) (c : ConnectionInfo) (hit : Hit) : LogInfo :=
  { logtime := holding 25 time.bytes, processorid := 43,
    website := holding 7 (ascii ['r', 'e', 'n', 'r', 'e', 'n']), serverport := lt.serverport,
    clientport := lt.clientport, serverip := holding 32 (inetNtoa lt.serverip),
    clientip := holding 32 (inetNtoa lt.clientip), actiontype := c.pType,
    userID := holding 20 c.userId, resourceID := holding 20 c.rId, originUID := holding 20 c.sId,
    originRID := cleared 20, keywords := holding 300 (hit.keywords c.url), gkType := hit.gkType,
    fulltext := holding 1000 c.comment }

theorem store_again {n : Nat} {s : List UInt8} (h : s.length ≤ n) :
    store (holding n s) 0 s = some (holding n s) := by
  rw [store_zero (by rw [length_holding h]; exact h), holding, List.drop_left]

theorem Hit.length_keywords_le (hit : Hit) (url : List UInt8) :
    (hit.keywords url).length ≤ hit.room url := by
  cases hit with
  | monitor fullText => exact le_rfl
  | url kw =>
    rw [Hit.keywords, Hit.room, List.length_append, List.length_dropLast]
    exact le_max_right _ _
  | gk fullText => exact le_rfl
  | trie pattern1 => exact le_rfl

theorem joined_ne_nil {kw : List (List UInt8)} (h : kw ≠ []) : joined kw ≠ [] := by
  obtain ⟨k, kw, rfl⟩ := List.exists_cons_of_ne_nil h
  simp [joined]

theorem zero_not_mem_joined {kw : List (List UInt8)} (h : ∀ k ∈ kw, 0 ∉ k) :
    0 ∉ joined kw := by
  unfold joined
  rw [List.mem_flatten]
  rintro ⟨piece, hPiece, hMem⟩
  obtain ⟨k, hk, rfl⟩ := List.mem_map.mp hPiece
  rcases List.mem_append.mp hMem with hMem | hMem
  · exact h k hk hMem
  · revert hMem
    decide

theorem Hit.Terminated.keywords {hit : Hit} (h : hit.Terminated) {url : List UInt8}
    (hUrl : 0 ∉ url) : 0 ∉ hit.keywords url := by
  cases hit with
  | monitor fullText => exact h
  | gk fullText => exact h
  | url kw =>
    intro hMem
    rcases List.mem_append.mp hMem with hMem | hMem
    · exact zero_not_mem_joined h.2 ((List.dropLast_sublist _).subset hMem)
    · exact hUrl hMem
  | trie pattern1 => exact List.not_mem_nil

/-- The record with other keywords. -/
def LogInfo.withKeywords (log : LogInfo) (s : List UInt8) : LogInfo :=
  { log with keywords := holding 300 s }

theorem logAddkeyword_holding (log : LogInfo) {s : List UInt8} (kw : List UInt8) (hs : 0 ∉ s)
    (h : s.length ≤ 300) : logAddkeyword (log.withKeywords s) kw =
      if s.length + kw.length < 300 then some (log.withKeywords (s ++ kw)) else none := by
  have hCat := strcat_holding hs h kw
  rw [logAddkeyword, LogInfo.withKeywords, hCat]
  split <;> rfl

theorem logAddkeywords_cons (log : LogInfo) (k : List UInt8) (kw : List (List UInt8)) :
    logAddkeywords log (k :: kw) = ((logAddkeyword log k).bind (logAddkeyword · [38])).bind
      (logAddkeywords · kw) := List.foldlM_cons

theorem joined_cons (k : List UInt8) (kw : List (List UInt8)) :
    joined (k :: kw) = k ++ [38] ++ joined kw := rfl

theorem logAddkeywords_holding {kw : List (List UInt8)} (hKw : ∀ k ∈ kw, 0 ∉ k)
    (log : LogInfo) {s : List UInt8} (hs : 0 ∉ s) (h : s.length < 300) :
    logAddkeywords (log.withKeywords s) kw = if s.length + (joined kw).length < 300 then
      some (log.withKeywords (s ++ joined kw)) else none := by
  induction kw generalizing s with
  | nil =>
    rw [if_pos (by simpa [joined] using h), joined, List.map_nil, List.flatten_nil,
      List.append_nil]
    rfl
  | cons k kw ih =>
    have hNext : 0 ∉ s ++ k := by simp [hs, hKw k List.mem_cons_self]
    have hLast : 0 ∉ s ++ k ++ [38] := by simp [hs, hKw k List.mem_cons_self]
    rw [logAddkeywords_cons, logAddkeyword_holding log k hs h.le, joined_cons]
    simp only [List.length_append, List.length_singleton]
    by_cases hWord : s.length + k.length < 300
    · rw [if_pos hWord, Option.bind_some,
        logAddkeyword_holding log [38] hNext (by rw [List.length_append]; omega)]
      simp only [List.length_append, List.length_singleton]
      by_cases hFits : s.length + k.length + 1 < 300
      · rw [if_pos hFits, Option.bind_some,
          ih (fun k' hk' => hKw k' (List.mem_cons_of_mem _ hk')) hLast (by simp; omega)]
        simp only [List.length_append, List.length_singleton, List.append_assoc, Nat.add_assoc]
      · rw [if_neg hFits, if_neg (by omega)]
        rfl
    · rw [if_neg hWord, if_neg (by omega)]
      rfl

theorem cutKeywords_holding (log : LogInfo) {s : List UInt8} {b : UInt8} (hs : 0 ∉ s ++ [b])
    (h : (s ++ [b]).length < 300) :
    cutKeywords (log.withKeywords (s ++ [b])) = some (log.withKeywords s) := by
  have hText := text_holding (n := 300) hs
  rw [if_pos h] at hText
  have hCut : store (holding 300 (s ++ [b])) s.length [0] = some (holding 300 s) := by
    rw [List.length_append, List.length_singleton] at h
    have hGap := store_gap s [b] (cleared (300 - (s ++ [b]).length)) [0] (Nat.le_refl 1)
    have hSame := holding_terminated (n := 300) (s := s) (by omega)
    rw [holding, List.length_append] at hSame
    rw [holding, List.append_assoc, hGap, ← hSame, List.length_append]
    rfl
  rw [cutKeywords, LogInfo.withKeywords, hText, Option.bind_eq_bind, Option.bind_some,
    if_neg (by simp), List.length_append, List.length_singleton, Nat.add_sub_cancel, hCut]
  rfl

/-- The keywords of the url: the last `&` is cut, and the url goes behind. -/
theorem urlKeywords_eq (log : LogInfo) {kw : List (List UInt8)} (url : List UInt8)
    (hKw : (Hit.url kw).Terminated) : (do
      let log ← logAddkeywords (log.withKeywords []) kw
      let log ← cutKeywords log
      logAddkeyword log url) =
      if (Hit.url kw).room url < 300 then some (log.withKeywords ((Hit.url kw).keywords url))
      else none := by
  have hZero := zero_not_mem_joined hKw.2
  obtain ⟨s, b, hJoined⟩ := (List.eq_nil_or_concat _).resolve_left (joined_ne_nil hKw.1)
  rw [List.concat_eq_append] at hJoined
  have hLength : (joined kw).length = s.length + 1 := by simp [hJoined]
  have hKeep : 0 ∉ s := fun hMem => hZero (hJoined ▸ List.mem_append_left _ hMem)
  rw [Hit.room, Hit.keywords, logAddkeywords_holding hKw.2 log List.not_mem_nil (by decide),
    List.nil_append, List.length_nil, Nat.zero_add, hLength]
  by_cases hFits : s.length + 1 < 300
  · have hCut := cutKeywords_holding log (s := s) (b := b) (hJoined ▸ hZero)
      (by simpa using hFits)
    rw [if_pos hFits, Option.bind_eq_bind, Option.bind_some, hJoined, hCut, Option.bind_some,
      logAddkeyword_holding log url hKeep (by omega), List.dropLast_concat,
      Nat.add_sub_cancel]
    simp only [max_lt_iff, hFits, true_and]
  · rw [if_neg hFits, if_neg (by omega)]
    rfl

theorem logHit_eq (log : LogInfo) {url : List UInt8} {hit : Hit} (hHit : hit.Terminated) :
    logHit (log.withKeywords []) url hit = if hit.room url < 300 then
      some (LogInfo.withKeywords { log with gkType := hit.gkType } (hit.keywords url))
      else none := by
  have hEmpty : (0 : UInt8) ∉ ([] : List UInt8) := List.not_mem_nil
  cases hit with
  | monitor fullText =>
    have hAdd := logAddkeyword_holding { log with gkType := 4 } fullText hEmpty (by decide)
    rwa [List.length_nil, Nat.zero_add, List.nil_append] at hAdd
  | url kw => exact urlKeywords_eq { log with gkType := 3 } url hHit
  | gk fullText =>
    have hAdd := logAddkeyword_holding { log with gkType := 0 } fullText hEmpty (by decide)
    rwa [List.length_nil, Nat.zero_add, List.nil_append] at hAdd
  | trie pattern1 => rfl

/-- The record is made exactly when its copies fit, with or without a terminator. -/
theorem logRecord_eq (time : LogTime) (lt : LocationTuple) {c : ConnectionInfo} {hit : Hit}
    (hc : c.Terminated) (hHit : hit.Terminated) : logRecord time lt c hit =
      if c.rId.length ≤ 20 ∧ c.comment.length ≤ 1000 ∧ hit.room c.url < 300 then
        some (filledLog time lt c hit) else none := by
  have hServer := length_inetNtoa lt.serverip
  have hClient := length_inetNtoa lt.clientip
  have hInit : initlog time lt = some
      { filledLog time lt c hit with
        actiontype := 0, userID := cleared 20, resourceID := cleared 20, originUID := cleared 20,
        keywords := cleared 300, gkType := 0, fulltext := cleared 1000 } := by
    rw [initlog, store_cleared, if_pos (by rw [time.length_eq]; decide), strcpy_cleared,
      if_pos (by omega), strcpy_cleared, if_pos (by omega)]
    rfl
  have hUser : store (cleared 20) 0 c.userId = some (holding 20 c.userId) := by
    rw [store_cleared, if_pos hc.userId.2.le]
  have hOrigin : store (cleared 20) 0 c.sId = some (holding 20 c.sId) := by
    rw [store_cleared, if_pos hc.sId.2.le]
  have hSocial : logAddsocialinfo { filledLog time lt c hit with
      actiontype := 0, userID := cleared 20, resourceID := cleared 20, originUID := cleared 20,
      keywords := cleared 300, gkType := 0, fulltext := cleared 1000 } c =
      if c.rId.length ≤ 20 ∧ c.comment.length ≤ 1000 then
        some (LogInfo.withKeywords { filledLog time lt c hit with gkType := 0 } []) else none := by
    simp only [logAddsocialinfo, hUser, hOrigin, store_cleared]
    by_cases hId : c.rId.length ≤ 20 <;> by_cases hComment : c.comment.length ≤ 1000
    · simp only [hId, hComment, and_self, if_true]
      rfl
    all_goals simp [hId, hComment]
  rw [logRecord, hInit, Option.bind_eq_bind, Option.bind_some, hSocial]
  by_cases hFits : c.rId.length ≤ 20 ∧ c.comment.length ≤ 1000
  · rw [if_pos hFits, Option.bind_some, logHit_eq _ hHit]
    by_cases hRoom : hit.room c.url < 300
    · have hAgain := store_again hFits.2
      rw [if_pos hRoom, if_pos ⟨hFits.1, hFits.2, hRoom⟩, Option.bind_some,
        logSetFullText, LogInfo.withKeywords, filledLog, hAgain]
      rfl
    · rw [if_neg hRoom, if_neg fun h => hRoom h.2.2]
      rfl
  · rw [if_neg hFits, if_neg fun h => hFits ⟨h.1, h.2.1⟩]
    rfl

/-! ### The message -/

/-- The pieces of the message. -/
def pieces (time : LogTime) (lt : LocationTuple) (c : ConnectionInfo) (hit : Hit) :
    List (List UInt8) :=
  [time.bytes ++ [124], decimal 43 ++ [124], ascii ['r', 'e', 'n', 'r', 'e', 'n'] ++ [124],
    inetNtoa lt.serverip ++ [124], decimal lt.serverport.toNat ++ [124],
    inetNtoa lt.clientip ++ [124], decimal lt.clientport.toNat ++ [124], decimal c.pType ++ [124],
    c.userId ++ [124], c.rId ++ [124], c.sId ++ [124], [] ++ [124],
    hit.keywords c.url ++ [124], decimal hit.gkType ++ [124],
    c.comment ++ ascii ['|', 'e', 'n', 'd', '|']]

theorem length_gkType (hit : Hit) : (decimal hit.gkType).length = 1 := by
  have hDigit : ∀ k ∈ [4, 3, 2, 1, 0], (decimal k).length = 1 := by decide
  cases hit with
  | monitor fullText => exact hDigit 4 (by decide)
  | url kw => exact hDigit 3 (by decide)
  | gk fullText => exact hDigit 0 (by decide)
  | trie pattern1 =>
    rw [Hit.gkType]
    split_ifs <;> decide

theorem length_pieces (time : LogTime) (lt : LocationTuple) (c : ConnectionInfo) (hit : Hit) :
    (pieces time lt c hit).flatten.length = messageLength lt c hit := by
  have hKind := length_gkType hit
  have hProcessor : (decimal 43).length = 2 := by decide
  have hSite : (ascii ['r', 'e', 'n', 'r', 'e', 'n']).length = 6 := rfl
  have hEnd : (ascii ['|', 'e', 'n', 'd', '|']).length = 5 := rfl
  simp only [pieces, List.flatten_cons, List.flatten_nil, List.length_append,
    List.length_nil, time.length_eq, hKind, hProcessor, hSite, hEnd, messageLength,
    List.length_singleton]
  -- `omega` compares its atoms by evaluation
  clear hKind hProcessor hSite hEnd
  generalize (inetNtoa lt.serverip).length = a, (decimal lt.serverport.toNat).length = b,
    (inetNtoa lt.clientip).length = d, (decimal lt.clientport.toNat).length = e,
    (decimal c.pType).length = f
  omega

theorem zero_not_mem_pieces (time : LogTime) (lt : LocationTuple) {c : ConnectionInfo} {hit : Hit}
    (hc : c.Terminated) (hHit : hit.Terminated) :
    ∀ piece ∈ pieces time lt c hit, 0 ∉ piece := by
  have hSite : (0 : UInt8) ∉ ascii ['r', 'e', 'n', 'r', 'e', 'n'] := by decide
  have hEnd : (0 : UInt8) ∉ ascii ['|', 'e', 'n', 'd', '|'] := by decide
  simp [pieces, time.terminated, zero_not_mem_decimal, zero_not_mem_inetNtoa, hc.userId.1,
    hc.rId.1, hc.sId.1, hc.comment.1, hHit.keywords hc.url.1, hSite, hEnd]

/-- The strings and the numbers of a record are appended to the buffer. -/
theorem assemble_texts {log : LogInfo}
    (buf : List UInt8) {logtime website serverip clientip userID resourceID originUID
    originRID keywords fulltext : List UInt8} (hTime : text log.logtime = some logtime)
    (hWebsite : text log.website = some website) (hServer : text log.serverip = some serverip)
    (hClient : text log.clientip = some clientip) (hUser : text log.userID = some userID)
    (hResource : text log.resourceID = some resourceID)
    (hOrigin : text log.originUID = some originUID) (hRid : text log.originRID = some originRID)
    (hKeywords : text log.keywords = some keywords) (hText : text log.fulltext = some fulltext) :
    assemble log buf =
      ([logtime ++ [124], decimal log.processorid ++ [124], website ++ [124], serverip ++ [124],
        decimal log.serverport.toNat ++ [124], clientip ++ [124],
        decimal log.clientport.toNat ++ [124], decimal log.actiontype ++ [124], userID ++ [124],
        resourceID ++ [124], originUID ++ [124], originRID ++ [124], keywords ++ [124],
        decimal log.gkType ++ [124], fulltext ++ ascii ['|', 'e', 'n', 'd', '|']].foldlM strcat
        buf) >>= (copyBehind · [10]) := by
  -- a step of the block is rewritten, since the kernel is slow to unfold all of them
  have hSome : ∀ (s : List UInt8) (f : List UInt8 → Option (List UInt8)),
    (some s >>= f) = f s :=
    fun s f => Option.bind_some s f
  unfold assemble
  rw [hTime, hWebsite, hServer, hClient, hUser, hResource, hOrigin, hRid, hKeywords, hText]
  simp only [sprintf, List.foldlM_cons, List.foldlM_nil, bind_assoc, bind_pure, hSome]

theorem sendlog_pieces (time : LogTime) (lt : LocationTuple) {c : ConnectionInfo} {hit : Hit}
    (hc : c.Terminated) (hHit : hit.Terminated) (hId : c.rId.length < 20)
    (hComment : c.comment.length < 1000) (hRoom : hit.room c.url < 300) :
    sendlog (filledLog time lt c hit) =
      (pieces time lt c hit).foldlM strcat (cleared 1200) >>= (copyBehind · [10]) := by
  have hText : ∀ (n : Nat) (s : List UInt8), 0 ∉ s → s.length < n →
      text (holding n s) = some s := fun n s hs h => by rw [text_holding hs, if_pos h]
  have hServer := length_inetNtoa lt.serverip
  have hClient := length_inetNtoa lt.clientip
  have hEmpty : text (cleared 20) = some ([] : List UInt8) := by
    rw [← holding_nil]
    exact hText 20 [] List.not_mem_nil (by decide)
  exact assemble_texts _ (hText 25 _ time.terminated (by rw [time.length_eq]; decide))
    (hText 7 _ (by decide) (by decide)) (hText 32 _ (zero_not_mem_inetNtoa _) (by omega))
    (hText 32 _ (zero_not_mem_inetNtoa _) (by omega)) (hText 20 _ hc.userId.1 hc.userId.2)
    (hText 20 _ hc.rId.1 hId) (hText 20 _ hc.sId.1 hc.sId.2) hEmpty
    (hText 300 _ (hHit.keywords hc.url.1) (lt_of_le_of_lt (hit.length_keywords_le c.url) hRoom))
    (hText 1000 _ hc.comment.1 hComment)

/-- The message is assembled exactly when it fits with its terminator. -/
theorem sendlog_filled (time : LogTime) (lt : LocationTuple) {c : ConnectionInfo} {hit : Hit}
    (hc : c.Terminated) (hHit : hit.Terminated) (hId : c.rId.length < 20)
    (hComment : c.comment.length < 1000) (hRoom : hit.room c.url < 300) :
    (∃ buf, sendlog (filledLog time lt c hit) = some buf) ↔ messageLength lt c hit < 1200 := by
  have hPieces := zero_not_mem_pieces time lt hc hHit
  rw [sendlog_pieces time lt hc hHit hId hComment hRoom, ← holding_nil,
    foldlM_strcat hPieces List.not_mem_nil (by decide), List.nil_append, length_pieces]
  split
  next hFits =>
    have hEnd := copyBehind_holding (n := 1200) (s := (pieces time lt c hit).flatten)
      (fun hMem => ?_) ?_ [10]
    · rw [if_pos (by rw [length_pieces]; exact ⟨hFits, hFits⟩)] at hEnd
      exact ⟨fun _ => hFits, fun _ => ⟨_, hEnd⟩⟩
    · obtain ⟨piece, hPiece, hMem⟩ := List.mem_flatten.mp hMem
      exact hPieces piece hPiece hMem
    · rw [length_pieces]
      exact hFits.le
  next hFits => simp [hFits]

/-- The strings of the record are terminated when they leave room for it. -/
theorem terminated_filled (time : LogTime) (lt : LocationTuple) {c : ConnectionInfo} {hit : Hit}
    (hc : c.Terminated) (hHit : hit.Terminated) (hRoom : hit.room c.url < 300) :
    (filledLog time lt c hit).Terminated ↔ c.rId.length < 20 ∧ c.comment.length < 1000 := by
  have hServer := length_inetNtoa lt.serverip
  have hClient := length_inetNtoa lt.clientip
  have hKeywords : (hit.keywords c.url).length < 300 :=
    lt_of_le_of_lt (hit.length_keywords_le c.url) hRoom
  constructor
  · intro h
    exact ⟨(zero_mem_holding hc.rId.1).mp h.resourceID,
      (zero_mem_holding hc.comment.1).mp h.fulltext⟩
  · rintro ⟨hId, hComment⟩
    exact
      { logtime := (zero_mem_holding time.terminated).mpr (by rw [time.length_eq]; decide)
        website := (zero_mem_holding (by decide)).mpr (by decide)
        serverip := (zero_mem_holding (zero_not_mem_inetNtoa _)).mpr (by omega)
        clientip := (zero_mem_holding (zero_not_mem_inetNtoa _)).mpr (by omega)
        userID := (zero_mem_holding hc.userId.1).mpr hc.userId.2
        resourceID := (zero_mem_holding hc.rId.1).mpr hId
        originUID := (zero_mem_holding hc.sId.1).mpr hc.sId.2
        originRID := (zero_mem_holding (n := 20) (s := []) List.not_mem_nil).mpr (by decide)
        keywords := (zero_mem_holding (hHit.keywords hc.url.1)).mpr hKeywords
        fulltext := (zero_mem_holding hc.comment.1).mpr hComment }

/-- A record is logged safely exactly when its strings and its message fit with their
terminators. -/
theorem logsSafely_iff (time : LogTime) (lt : LocationTuple) {c : ConnectionInfo} {hit : Hit}
    (hc : c.Terminated) (hHit : hit.Terminated) : LogsSafely time lt c hit ↔ Fits lt c hit := by
  constructor
  · rintro ⟨log, hRecord, hTerminated, hSend⟩
    rw [logRecord_eq time lt hc hHit] at hRecord
    obtain ⟨⟨-, -, hRoom⟩, hLog⟩ := Option.ite_none_right_eq_some.mp hRecord
    obtain rfl := Option.some.inj hLog
    obtain ⟨hId, hComment⟩ := (terminated_filled time lt hc hHit hRoom).mp hTerminated
    exact ⟨hId, hComment, hRoom, (sendlog_filled time lt hc hHit hId hComment hRoom).mp hSend⟩
  · rintro ⟨hId, hComment, hRoom, hMessage⟩
    refine ⟨filledLog time lt c hit, ?_, ?_, ?_⟩
    · rw [logRecord_eq time lt hc hHit, if_pos ⟨hId.le, hComment.le, hRoom⟩]
    · exact (terminated_filled time lt hc hHit hRoom).mpr ⟨hId, hComment⟩
    · exact (sendlog_filled time lt hc hHit hId hComment hRoom).mpr hMessage

/-- The time `2015-06-08 12:30:00.000`. -/
def logTime : LogTime where
  bytes := [50, 48, 49, 53, 45, 48, 54, 45, 48, 56, 32, 49, 50, 58, 51, 48, 58, 48, 48, 46, 48, 48,
    48]
  length_eq := by decide
  terminated := by decide

/-- The location of the port 80 of `10.0.0.1`. -/
def location : LocationTuple := ⟨80, ⟨10, 0, 0, 1⟩, 40000, ⟨10, 0, 0, 2⟩⟩

/-- A status with the word `free`. -/
theorem logsSafely_iff_free : LogsSafely logTime location
    ⟨[49], [50], 4, [51], ascii ['f', 'r', 'e', 'e'], []⟩ (.gk (ascii ['f', 'r', 'e', 'e'])) :=
  (logsSafely_iff logTime location ⟨by decide, by decide, by decide, by decide, by decide⟩
    (by unfold Hit.Terminated; decide)).mpr ⟨by decide, by decide, by decide, by decide⟩

/-- A resource identifier of 21 bytes runs out of its array. -/
theorem logsSafely_fails : ¬∀ (time : LogTime) (lt : LocationTuple) (c : ConnectionInfo)
    (hit : Hit), c.Terminated → hit.Terminated → LogsSafely time lt c hit := by
  intro h
  have hId : (⟨[49], [50], 4, List.replicate 21 51, [], []⟩ : ConnectionInfo).Terminated :=
    ⟨by decide, by decide, by decide, by decide, by decide⟩
  have hTrie : (Hit.trie (-1)).Terminated := trivial
  obtain ⟨log, hRecord, -⟩ := h logTime location _ _ hId hTrie
  rw [logRecord_eq logTime location hId hTrie, if_neg (by decide)] at hRecord
  cases hRecord

end Shutter.Rules
