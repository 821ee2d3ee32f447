import Shutter.Http.Query

/-! What the callbacks of `http_parse.c` extract from a request, with the `qs_scanvalue` of
`qs_parse.c`.  The arrays of the `connection_info` end with a zero before and after each callback,
and the form in the body of a request gives them the values of its fields. -/

namespace Shutter.Http

open Shutter.Library
open Shutter.Acsm (cstr)

/-- `qs_scanvalue` on a string in the request, with what the memory holds behind its terminator when
the key is looked up.  Where that memory ends first the program does not go on. -/
def qsScan (behind : List UInt8 → List UInt8) : QsScanvalue := fun _ key qs val =>
  match qsScanvalue key (qs ++ 0 :: behind key) val with
  | some (_, val') => val'
  | none => val

/-! ### Copies -/

section Copies

variable {n : Nat} {a a' : Vector UInt8 n} {behind : List UInt8 → List UInt8}

theorem closed_copy (h : Closed a) (s : List UInt8) {len : Nat} (hLen : len < n) :
    Closed (copy a s len) := by
  have hTake := List.length_take_le len s
  exact closed_write_string (closed_write h (by omega)) (s := []) (by simpa using hLen)

theorem closed_clear (h : Closed a) : Closed (write a 0 [0]) := by
  obtain ⟨hSize, -⟩ := Vector.getElem?_eq_some_iff.mp h
  exact closed_write_string h (s := []) (by simp; omega)

theorem closed_copyWithin (h : Closed a) {s : List UInt8} {len : Nat}
    (hCopy : copyWithin a s len = some a') : Closed a' := by
  obtain ⟨hLen, hEq⟩ := Option.ite_none_right_eq_some.mp hCopy
  rw [← Option.some.inj hEq]
  exact closed_copy h s hLen

theorem closed_clearWithin (h : Closed a) (hClear : memcpy a 0 [0] = some a') : Closed a' := by
  obtain ⟨-, hEq⟩ := Option.ite_none_right_eq_some.mp hClear
  rw [← Option.some.inj hEq]
  exact closed_clear h

theorem closed_strcatWithin (h : Closed a) {s : List UInt8} (hCat : strcatWithin a s = some a') :
    Closed a' := by
  obtain ⟨hFits, hEq⟩ := Option.ite_none_right_eq_some.mp hCat
  rw [← Option.some.inj hEq]
  rw [List.length_append, List.length_singleton] at hFits
  exact closed_write_string h (by omega)

theorem closed_scan (h : Closed a) (key qs : List UInt8) : Closed (qsScan behind n key qs a) := by
  unfold qsScan
  split
  next hScan => exact qsScanvalue_closed h hScan
  next => exact h

theorem closed_scanAll (h : Closed a) (body : List UInt8) (keys : List String) :
    Closed (scanAll (qsScan behind) body keys a) := by
  unfold scanAll
  induction keys generalizing a with
  | nil => exact h
  | cons key keys ih => exact ih (closed_scan h (literal key) body)

theorem closed_zeros (hn : 0 < n) : Closed (zeros n) := by
  rw [Closed, Vector.getElem?_eq_getElem (by omega)]
  simp [zeros]

end Copies

/-! ### The callbacks -/

section Callbacks

variable {heap : Heap} {behind : List UInt8 → List UInt8} {c : ConnectionInfo}

/-- The arrays of the `connection_info` but the comment end with a zero. -/
structure ConnectionInfo.Closed (c : ConnectionInfo) : Prop where
  userId : Http.Closed c.userId
  sId : Http.Closed c.sId
  rId : Http.Closed c.rId
  url : Http.Closed c.url

theorem closed_noteIds (h : c.Closed) (path : List UInt8) : (noteIds path c).Closed := by
  have hType : (if (strstr path (literal "blogs/")).isSome then { c with pType := .none }
      else c : ConnectionInfo).Closed := by
    split
    · exact ⟨h.userId, h.sId, h.rId, h.url⟩
    · exact h
  unfold noteIds
  simp only
  cases strstr path (literal "blog/") with
  | none => exact hType
  | some i =>
    have hId := closed_copy hType.sId (path.drop (i + 5)) (by decide : 9 < 20)
    cases hFound : strstr (path.drop (i + 6)) (literal "/") with
    | none =>
      simp only [hFound]
      exact ⟨hType.userId, hId, hType.rId, hType.url⟩
    | some j =>
      simp only [hFound]
      exact ⟨hType.userId, hId, closed_copy hType.rId _ (by decide), hType.url⟩

theorem closed_copyField (heap : Heap) {n : Nat} {a : Vector UInt8 n} (h : Closed a)
    (url : List UInt8) (i : Nat) {limit : Int} (hLimit : limit ≤ n) :
    Closed (copyField heap a url i limit) := by
  unfold copyField
  simp only
  split
  next hLen => exact closed_copy h _ (by omega)
  next => exact closed_clear h

theorem closed_likeIds (h : c.Closed) (url : List UInt8) : (likeIds heap url c).Closed := by
  have hLow (i : Nat) := closed_copyField heap h.rId url (i + 1) (by decide : (52 : Int) ≤ _)
  have hOwner (i : Nat) := closed_copyField heap h.sId url (i + 5) (by decide : (20 : Int) ≤ _)
  unfold likeIds
  cases strstr url (literal "_") <;> cases strstr url (literal "owner")
  · exact h
  · exact ⟨h.userId, hOwner _, h.rId, h.url⟩
  · exact ⟨h.userId, h.sId, hLow _, h.url⟩
  · exact ⟨h.userId, hOwner _, hLow _, h.url⟩

theorem closed_uploadIds (h : c.Closed) (url : List UInt8) : (uploadIds url c).Closed := by
  unfold uploadIds
  cases strstr url (literal "hostid=") with
  | none => exact h
  | some i => exact ⟨closed_copy h.userId _ (by decide), h.sId, h.rId, h.url⟩

theorem closed_urlParse {s : HttpParser} (h : s.cInfo.Closed) (url : List UInt8) :
    (urlParse heap url s).cInfo.Closed := by
  have hType : ({ s.cInfo with pType := pageTypeOf s.cInfo url } : ConnectionInfo).Closed :=
    ⟨h.userId, h.sId, h.rId, h.url⟩
  unfold urlParse
  simp only
  split
  · exact h
  · split
    · exact closed_noteIds hType _
    · exact closed_likeIds hType url
    · exact closed_uploadIds hType url
    · exact hType

theorem closed_onUrlWithin {s s' : HttpParser} (h : s.cInfo.Closed) {url : List UInt8}
    {length : Nat} (hUrl : onUrlWithin heap s url length = some s') : s'.cInfo.Closed := by
  unfold onUrlWithin at hUrl
  split at hUrl
  · cases hUrl
    exact h
  · obtain ⟨-, hUrl⟩ := Option.ite_none_right_eq_some.mp hUrl
    obtain ⟨getTest, -, hUrl⟩ := Option.bind_eq_some_iff.mp hUrl
    rw [urlParseWithin_eq] at hUrl
    rw [← Option.some.inj hUrl]
    exact closed_urlParse (s := s.withUrl _ getTest) h _

theorem closed_cookieId {userId : Vector UInt8 20} (h : Closed userId) (value : List UInt8) :
    Closed (cookieId userId value) := by
  have hBefore (id : List UInt8) : Closed (idBefore userId id) := by
    unfold idBefore
    split
    · exact h
    · split
      next hLen => exact closed_copy h id hLen.2
      next => exact closed_clear h
  unfold cookieId
  split
  · split
    · exact h
    · exact hBefore _
  · exact h

theorem closed_onHeaderValueWithin {s s' : HttpParser} (h : s.cInfo.Closed) {value : List UInt8}
    {length : Nat} (hValue : onHeaderValueWithin heap s value length = some s') :
    s'.cInfo.Closed := by
  unfold onHeaderValueWithin at hValue
  cases hType : s.gh.httpFieldType with
  | host =>
    rw [hType] at hValue
    obtain ⟨url, hUrl, hValue⟩ := Option.bind_eq_some_iff.mp hValue
    rw [hostUrlWithin_eq s.getTest (zero_not_mem_cstr _)] at hUrl
    obtain ⟨hRoom, hUrl⟩ := Option.ite_none_right_eq_some.mp hUrl
    cases hValue
    refine ⟨h.userId, h.sId, h.rId, ?_⟩
    rw [← Option.some.inj hUrl]
    refine closed_write (closed_zeros (by decide)) ?_
    unfold HasRoom at hRoom
    simp only [List.flatten_cons, List.flatten_nil, List.length_append,
      List.length_nil] at hRoom ⊢
    omega
  | cookie =>
    rw [hType, cookieIdWithin_eq] at hValue
    cases hValue
    exact ⟨closed_cookieId h.userId value, h.sId, h.rId, h.url⟩
  | contentLen =>
    rw [hType] at hValue
    cases hValue
    exact h
  | referer =>
    rw [hType, urlParseWithin_eq] at hValue
    simp only at hValue
    split at hValue
    · cases hValue
      exact closed_urlParse h _
    · cases hValue
      exact h
  | other =>
    rw [hType] at hValue
    cases hValue
    exact h

/-- The arrays of the extraction end with a zero. -/
structure Extraction.Closed (s : Extraction) : Prop where
  cInfo : s.parser.cInfo.Closed
  comment : Http.Closed s.comment

variable {s s' : Extraction} {body : List UInt8}

/-- The two branches for a `CHAT` differ in the key, the byte that ends the text and the bound. -/
theorem closed_chat {n : Nat} {a a' : Vector UInt8 n} (h : Closed a) {key : List UInt8}
    {skip bound : Nat} {stop : UInt8}
    (hChat : (match strstr body key with
      | none => some a
      | some i =>
        match strchr (body.drop (i + skip)) stop with
        | none => some a
        | some len =>
          if 0 < len ∧ len < bound then copyWithin a (body.drop (i + skip)) len
          else memcpy a 0 [0]) = some a') : Closed a' := by
  split at hChat
  · cases hChat
    exact h
  split at hChat
  · cases hChat
    exact h
  split at hChat
  · exact closed_copyWithin h hChat
  · exact closed_clearWithin h hChat

theorem closed_chatComment {comment comment' : Vector UInt8 10000} (h : Closed comment)
    (hChat : chatComment body comment = some comment') : Closed comment' :=
  closed_chat h hChat

theorem closed_chatId {sId sId' : Vector UInt8 20} (h : Closed sId)
    (hChat : chatId body sId = some sId') : Closed sId' :=
  closed_chat h hChat

theorem closed_shareComment {post : List UInt8} {comment comment' : Vector UInt8 10000}
    (h : Closed comment) (hShare : shareComment post comment = some comment') :
    Closed comment' := by
  unfold shareComment at hShare
  split at hShare
  · exact closed_clearWithin h hShare
  split at hShare
  · exact closed_clearWithin h hShare
  · exact closed_copyWithin h hShare

theorem closed_shareId {post : List UInt8} {rId rId' : Vector UInt8 52} (h : Closed rId)
    (hShare : shareId post rId = some rId') : Closed rId' := by
  unfold shareId at hShare
  cases hFound : strstr post (literal "\"id\":") with
  | none =>
    rw [hFound] at hShare
    cases hShare
    exact h
  | some k =>
    simp only [hFound] at hShare
    generalize strstr post _ = stop, (if startsWith (post.drop (k + 5)) _ = true then k + 6
      else k + 5) = start at hShare
    cases stop with
    | none =>
      cases hShare
      exact h
    | some stop =>
      simp only at hShare
      split at hShare
      · exact closed_copyWithin h hShare
      · cases hShare
        exact h

theorem closed_scanBody (h : s.Closed) {blocks : Blocks}
    (hBody : scanBody (qsScan behind) blocks s body = some s') : s'.Closed := by
  obtain ⟨⟨hUserId, hSId, hRId, hUrl⟩, hComment⟩ := h
  unfold scanBody at hBody
  simp only at hBody
  split at hBody
  · cases hBody
    exact ⟨⟨hUserId, closed_scanAll hSId _ _, closed_scanAll hRId _ _, hUrl⟩,
      closed_scanAll hComment _ _⟩
  · cases hBody
    exact ⟨⟨hUserId, closed_scan hSId _ _, closed_scan hRId _ _, hUrl⟩,
      closed_scan hComment _ _⟩
  · obtain ⟨comment, hCat, hBody⟩ := Option.bind_eq_some_iff.mp hBody
    cases hBody
    exact ⟨⟨hUserId, hSId, hRId, hUrl⟩, closed_strcatWithin (closed_scan hComment _ _) hCat⟩
  · cases hBody
    exact ⟨⟨hUserId, hSId, hRId, hUrl⟩, closed_scan hComment _ _⟩
  · obtain ⟨comment, hCat, hBody⟩ := Option.bind_eq_some_iff.mp hBody
    cases hBody
    exact ⟨⟨hUserId, hSId, hRId, hUrl⟩, closed_strcatWithin (closed_scan hComment _ _) hCat⟩
  · cases hBody
    exact ⟨⟨hUserId, hSId, hRId, hUrl⟩, closed_scan hComment _ _⟩
  · obtain ⟨comment, hChat, hBody⟩ := Option.bind_eq_some_iff.mp hBody
    obtain ⟨sId, hId, hBody⟩ := Option.bind_eq_some_iff.mp hBody
    cases hBody
    exact ⟨⟨hUserId, closed_chatId hSId hId, hRId, hUrl⟩, closed_chatComment hComment hChat⟩
  · split at hBody
    · cases hBody
      exact ⟨⟨hUserId, closed_scan hSId _ _, closed_scan hRId _ _, hUrl⟩,
        closed_scan hComment _ _⟩
    · obtain ⟨comment, hShare, hBody⟩ := Option.bind_eq_some_iff.mp hBody
      obtain ⟨rId, hId, hBody⟩ := Option.bind_eq_some_iff.mp hBody
      cases hBody
      exact ⟨⟨hUserId, hSId, closed_shareId hRId hId, hUrl⟩,
        closed_shareComment hComment hShare⟩
  · cases hBody
    exact ⟨⟨hUserId, hSId, hRId, hUrl⟩, hComment⟩
  · cases hBody
    exact ⟨⟨hUserId, hSId, hRId, hUrl⟩, hComment⟩
  · cases hBody
    exact ⟨⟨hUserId, hSId, hRId, hUrl⟩, hComment⟩
  · cases hBody
    exact ⟨⟨hUserId, hSId, hRId, hUrl⟩, hComment⟩

theorem closed_scanUser (h : c.Closed) (body : List UInt8) :
    (scanUser (qsScan behind) c body).Closed := by
  unfold scanUser
  split
  · exact ⟨closed_scan h.userId _ _, h.sId, h.rId, h.url⟩
  · exact h

/-- A callback keeps the zeros at the ends of the arrays. -/
theorem Call.run_closed (h : s.Closed) {memory : List UInt8} {call : Call}
    (hRun : call.run (qsScan behind) memory s = some s') : s'.Closed := by
  cases call with
  | url heap offset length =>
    obtain ⟨parser, hUrl, hRun⟩ := Option.bind_eq_some_iff.mp hRun
    cases hRun
    exact ⟨closed_onUrlWithin h.cInfo hUrl, h.comment⟩
  | headerField offset length =>
    cases hRun
    exact ⟨h.cInfo, h.comment⟩
  | headerValue heap offset length =>
    obtain ⟨parser, hValue, hRun⟩ := Option.bind_eq_some_iff.mp hRun
    cases hRun
    exact ⟨closed_onHeaderValueWithin h.cInfo hValue, h.comment⟩
  | body blocks offset length =>
    exact closed_scanBody
      (s := { s with parser := { s.parser with cInfo := scanUser _ s.parser.cInfo _ } })
      ⟨closed_scanUser h.cInfo _, h.comment⟩ hRun

theorem closed_start (getTest : Vector UInt8 512) (gh : GlobalHttp) :
    (start getTest gh).Closed where
  cInfo :=
    { userId := closed_zeros (by decide)
      sId := closed_zeros (by decide)
      rId := closed_zeros (by decide)
      url := closed_zeros (by decide) }
  comment := closed_zeros (by decide)

/-- After every run of callbacks whose writes are inside, the arrays end with a zero. -/
theorem run_closed {memory : List UInt8} {calls : List Call} {getTest : Vector UInt8 512}
    {gh : GlobalHttp}
    (hRun : calls.foldlM (Call.run (qsScan behind) memory) (start getTest gh) = some s) :
    s.Closed :=
  foldlM_kept (Call.run (qsScan behind) memory) (fun _ s => s.Closed) calls
    (closed_start getTest gh) hRun fun _ _ _ _ _ h hStep => Call.run_closed h hStep

end Callbacks

/-! ### Forms -/

section Forms

variable {n : Nat} {a a' : Vector UInt8 n} {behind : List UInt8 → List UInt8}
  {before : List UInt8}
  {fields : List Field} {keys : List String}

/-- The field that is looked up last. -/
def lastField (keys : List String) (fields : List Field) : Option Field :=
  keys.reverse.findSome? fun key => lookup (literal key) fields

/-- The array has the value of the field that is looked up last, or what it had before when the form
has none of the names. -/
def Extracts (keys : List String) (fields : List Field) (a a' : Vector UInt8 n) : Prop :=
  match lastField keys fields with
  | some f => Taken f a'
  | none => a' = a

/-- The keys are names of fields, or the form ends with an empty field. -/
def Stays (keys : List String) (fields : List Field) : Prop :=
  Ended fields ∨ ∀ key ∈ keys, (lookup (literal key) fields).isSome

/-- The keys are nonempty and plain. -/
def PlainKeys (keys : List String) : Prop :=
  ∀ key ∈ keys, literal key ≠ [] ∧ (literal key).all (fun c => decide (Plain c)) = true

instance (keys : List String) : Decidable (PlainKeys keys) :=
  inferInstanceAs (Decidable (∀ key ∈ keys, literal key ≠ [] ∧
    (literal key).all (fun c => decide (Plain c)) = true))

theorem scanAll_extracts (behind : List UInt8 → List UInt8) (hKeys : PlainKeys keys)
    (hBegins : Begins before fields) (hStays : Stays keys fields) (ha : Closed a) :
    Extracts keys fields a (scanAll (qsScan behind) (before ++ formText fields) keys a) := by
  induction keys using List.reverseRecOn with
  | nil => exact rfl
  | append_singleton keys key ih =>
    obtain ⟨hNonempty, hPlain⟩ := hKeys key (by simp)
    have ih := ih (fun k hk => hKeys k (List.mem_append_left _ hk))
      (hStays.imp id fun h k hk => h k (List.mem_append_left _ hk))
    have hClosed : Closed (scanAll (qsScan behind) (before ++ formText fields) keys a) :=
      closed_scanAll ha (before ++ formText fields) keys
    have hScan := qsScanvalue_form (List.all_iff_forall_prop.mp hPlain) hNonempty hBegins hClosed
      (behind (literal key))
    rw [scanAll, List.foldl_concat, ← scanAll]
    unfold Extracts lastField at ih ⊢
    rw [List.reverse_concat, List.findSome?_cons]
    cases hFound : lookup (literal key) fields with
    | some f =>
      rw [hFound] at hScan
      obtain ⟨val', -, hTaken, hScan⟩ := hScan
      simp only [qsScan, hScan]
      exact hTaken
    | none =>
      have hEnded : Ended fields := hStays.resolve_right fun h => by
        have hSome := h key (by simp)
        rw [hFound] at hSome
        cases hSome
      rw [hFound] at hScan
      simp only [hEnded, if_true] at hScan
      simp only [qsScan, hScan]
      exact ih

/-- The keys that `on_body` looks up for the arrays. -/
structure FormKeys where
  comment : List String
  rId : List String
  sId : List String

/-- The keys for the page types whose arrays get the values of fields. -/
def formKeys : PageType → Option FormKeys
  | .comment => some ⟨["c", "content", "comment", "body"], ["entryId", "id", "source"],
      ["entryOwnerId", "owner"]⟩
  | .addFriend => some ⟨["why"], ["pubId"], ["id"]⟩
  | .status => some ⟨["content"], [], []⟩
  | .uploadPhoto => some ⟨["title"], [], []⟩
  | .share => some ⟨["c"], ["fwdId"], ["fwdOwner"]⟩
  | _ => none

/-- The names are those of `formKeys`, and `__user`. -/
def FormKeys.all (keys : FormKeys) : List String := keys.comment ++ keys.rId ++ keys.sId

theorem formKeys_plain {pType : PageType} {keys : FormKeys} (h : formKeys pType = some keys) :
    PlainKeys keys.all := by
  cases pType <;> cases h <;> decide

theorem scanBody_formKeys {scan : QsScanvalue} {blocks : Blocks} {s : Extraction}
    {body : List UInt8} {keys : FormKeys} (h : formKeys s.parser.cInfo.pType = some keys)
    (hShare : s.parser.cInfo.pType = .share → startsWith body (literal "c=")) :
    scanBody scan blocks s body = some
      { parser :=
          { s.parser with
            cInfo :=
              { s.parser.cInfo with
                rId := scanAll scan body keys.rId s.parser.cInfo.rId
                sId := scanAll scan body keys.sId s.parser.cInfo.sId } }
        comment := scanAll scan body keys.comment s.comment } := by
  unfold scanBody
  simp only
  split <;> rename_i hType <;> rw [hType] at h <;> cases h
  · rfl
  · rfl
  · rfl
  · rfl
  · rw [if_pos (hShare hType)]
    rfl

/-- `on_body` on a form: the comment and the three identifiers get the values of the fields that are
looked up last, and the user is looked up only when it is not known. -/
theorem onBody_form (behind : List UInt8 → List UInt8) (blocks : Blocks) {s : Extraction}
    (hClosed : s.Closed) {before : List UInt8} {fields : List Field}
    (hBegins : Begins before fields) {keys : FormKeys}
    (hKeys : formKeys s.parser.cInfo.pType = some keys)
    (hShare : s.parser.cInfo.pType = .share → startsWith (before ++ formText fields)
    (literal "c=")) (hStays : Stays ("__user" :: keys.all) fields) : ∃ s',
      onBody (qsScan behind) blocks s (before ++ formText fields) = some s' ∧ s'.Closed ∧
        Extracts keys.comment fields s.comment s'.comment ∧
        Extracts keys.rId fields s.parser.cInfo.rId s'.parser.cInfo.rId ∧
        Extracts keys.sId fields s.parser.cInfo.sId s'.parser.cInfo.sId ∧
        Extracts (if firstByte s.parser.cInfo.userId = 0 then ["__user"] else []) fields
          s.parser.cInfo.userId s'.parser.cInfo.userId := by
  obtain ⟨⟨hUserId, hSId, hRId, hUrl⟩, hComment⟩ := hClosed
  have hPlain := formKeys_plain hKeys
  have hExtracts {n : Nat} {a : Vector UInt8 n} (ha : Closed a) {names : List String}
      (hSub : ∀ key ∈ names, key ∈ keys.all) :=
    scanAll_extracts behind (fun key hk => hPlain key (hSub key hk)) hBegins
      (hStays.imp id fun h key hk => h key (List.mem_cons_of_mem _ (hSub key hk))) ha
  have hUser := scanAll_extracts behind (show PlainKeys ["__user"] by decide) hBegins
    (hStays.imp id fun h key hk =>
      h key (List.mem_cons.mpr (.inl (List.mem_singleton.mp hk)))) hUserId
  obtain ⟨userId, hScan, hUserClosed, hUserExtracts⟩ : ∃ userId,
      scanUser (qsScan behind) s.parser.cInfo (before ++ formText fields) =
        { s.parser.cInfo with userId } ∧ Closed userId ∧
      Extracts (if firstByte s.parser.cInfo.userId = 0 then ["__user"] else []) fields
        s.parser.cInfo.userId userId := by
    unfold scanUser
    split
    · exact ⟨_, rfl, closed_scan hUserId _ _, hUser⟩
    · exact ⟨_, rfl, hUserId, rfl⟩
  let scanned : Extraction :=
    { s with parser := { s.parser with cInfo := { s.parser.cInfo with userId } } }
  have hBody : scanBody (qsScan behind) blocks scanned _ = some _ := scanBody_formKeys hKeys hShare
  rw [onBody, hScan]
  refine ⟨_, hBody, ⟨⟨hUserClosed, closed_scanAll hSId _ _, closed_scanAll hRId _ _, hUrl⟩,
    closed_scanAll hComment _ _⟩, ?_, ?_, ?_, hUserExtracts⟩
  · exact hExtracts hComment fun key hk => by simp [FormKeys.all, hk]
  · exact hExtracts hRId fun key hk => by simp [FormKeys.all, hk]
  · exact hExtracts hSId fun key hk => by simp [FormKeys.all, hk]

/-- After any callbacks for a request, the callback for a form in its body gives the comment and the
three identifiers the values of the fields that are looked up last. -/
theorem form_extracted {behind : List UInt8 → List UInt8} {memory : List UInt8}
    {calls : List Call} {getTest : Vector UInt8 512} {gh : GlobalHttp} {s : Extraction}
    (hRun : calls.foldlM (Call.run (qsScan behind) memory) (start getTest gh) = some s)
    (blocks : Blocks) {offset : Nat} (length : Nat) {before : List UInt8} {fields : List Field}
    (hBody : memory.drop offset = before ++ formText fields) (hBegins : Begins before fields)
    {keys : FormKeys} (hKeys : formKeys s.parser.cInfo.pType = some keys)
    (hShare : s.parser.cInfo.pType = .share → startsWith (before ++ formText fields)
    (literal "c=")) (hStays : Stays ("__user" :: keys.all) fields) : ∃ s',
      (calls ++ [Call.body blocks offset length]).foldlM (Call.run (qsScan behind) memory)
        (start getTest gh) = some s' ∧
      Extracts keys.comment fields s.comment s'.comment ∧
      Extracts keys.rId fields s.parser.cInfo.rId s'.parser.cInfo.rId ∧
      Extracts keys.sId fields s.parser.cInfo.sId s'.parser.cInfo.sId ∧
      Extracts (if firstByte s.parser.cInfo.userId = 0 then ["__user"] else []) fields
        s.parser.cInfo.userId s'.parser.cInfo.userId := by
  obtain ⟨s', hOnBody, -, hExtracts⟩ :=
    onBody_form behind blocks (run_closed hRun) hBegins hKeys hShare hStays
  refine ⟨s', ?_, hExtracts⟩
  rw [← hBody] at hOnBody
  rw [List.foldlM_append, hRun, Option.bind_eq_bind, Option.bind_some, List.foldlM_cons]
  exact congrArg (Option.bind · _) hOnBody

/-- The callbacks for `Referer:/status`, which makes a request one for a status. -/
def refererCalls : List Call := [.headerField 0 7, .headerValue ⟨[], [], 0⟩ 8 7]

/-- A request with a Referer for a status, and the body `content=a+b&`. -/
def statusMemory : List UInt8 := literal "Referer:/status" ++ formText aSpaceB

/-- The parser before the request. -/
def startGh : GlobalHttp := (parserAt .other).gh

/-- The state behind the Referer. -/
def refererState : Extraction :=
  { parser :=
      { cInfo := { (parserAt .other).cInfo with pType := .status }
        getTest := zeros 512
        gh :=
          { startGh with
            httpFieldType := .referer
            storage := urlGroups (literal "/status") startGh.storage } }
    comment := zeros 10000 }

theorem refererRun : refererCalls.foldlM (Call.run (qsScan fun _ => []) statusMemory)
    (start (zeros 512) startGh) = some refererState := rfl

/-- The status `a b`. -/
theorem form_extracted_status : ∃ s',
    (refererCalls ++ [Call.body ⟨zeros 100, zeros 30, []⟩ 15 12]).foldlM
      (Call.run (qsScan fun _ => []) statusMemory) (start (zeros 512) startGh) = some s' ∧
    Extracts ["content"] aSpaceB (zeros 10000) s'.comment ∧
    Extracts [] aSpaceB (zeros 52) s'.parser.cInfo.rId ∧
    Extracts [] aSpaceB (zeros 20) s'.parser.cInfo.sId ∧
    Extracts (if firstByte (zeros 20) = 0 then ["__user"] else []) aSpaceB (zeros 20)
      s'.parser.cInfo.userId :=
  form_extracted refererRun ⟨zeros 100, zeros 30, []⟩ 12
    (show statusMemory.drop 15 = [] ++ formText aSpaceB by decide) (.inl ⟨rfl, by decide⟩)
    (show formKeys refererState.parser.cInfo.pType = some _ from rfl) nofun (.inl (by decide))

end Forms

end Shutter.Http
