import Shutter.Http.Extraction
import Shutter.Rules.Calls
import Shutter.Rules.Log

/-! The `connection_info` of a request as `get_decision` and the log see it: the strings in its
arrays.  They end within the arrays after every run of the callbacks, and the query rules are
matched with the value that the form of the request has for the comment. -/

namespace Shutter.Rules

open Shutter.Acsm (cstr cstr_block)
open Shutter.Library
open Shutter.Http (Extraction PageType literal qsScan zeros)

/-- The values of `p_type`. -/
def pTypeCode : PageType → Int
  | .none => 0
  | .status => 2
  | .note => 3
  | .comment => 4
  | .photo => 5
  | .mediaSet => 6
  | .addFriend => 7
  | .editNote => 8
  | .uploadPhoto => 9
  | .share => 13
  | .like => 14
  | .chat => 19

/-- The `connection_info` that `processhttp` returns. -/
def info (s : Extraction) : ConnectionInfo where
  userId := cstr s.parser.cInfo.userId.toList
  sId := cstr s.parser.cInfo.sId.toList
  pType := pTypeCode s.parser.cInfo.pType
  rId := cstr s.parser.cInfo.rId.toList
  comment := cstr s.comment.toList
  url := cstr s.parser.cInfo.url.toList

section Request

variable {n : Nat} {a : Vector UInt8 n}

theorem terminated_of_closed (h : Http.Closed a) :
    0 ∉ cstr a.toList ∧ (cstr a.toList).length < n := by
  obtain ⟨hSize, hLast⟩ := Vector.getElem?_eq_some_iff.mp h
  refine ⟨Http.zero_not_mem_cstr _, ?_⟩
  have hZero : 0 ∈ a.toList := by
    rw [← hLast]
    exact Vector.mem_toList_iff.mpr (Vector.getElem_mem hSize)
  have hCut := List.takeWhile_append_dropWhile (p := (· ≠ 0)) (l := a.toList)
  have hLength := congrArg List.length hCut
  rw [List.length_append, Vector.length_toList] at hLength
  cases hRest : a.toList.dropWhile (· ≠ 0) with
  | nil =>
    rw [hRest, List.append_nil] at hCut
    rw [← hCut] at hZero
    exact absurd hZero (Http.zero_not_mem_cstr _)
  | cons c rest =>
    rw [hRest, List.length_cons] at hLength
    exact lt_of_lt_of_eq (by rw [cstr]; omega) hLength

theorem cstr_of_holds {s : List UInt8} (h : Http.Holds a s) : cstr a.toList = cstr s := by
  obtain ⟨rest, hRest⟩ := h
  rw [← hRest, List.append_assoc, List.singleton_append]
  unfold cstr
  clear hRest
  induction s with
  | nil => rfl
  | cons c s ih => rw [List.cons_append, List.takeWhile_cons, List.takeWhile_cons, ih]

/-- After every run of callbacks whose writes are inside, the strings of the `connection_info` end
within their arrays, whatever the bytes of the request are and whatever is behind it. -/
theorem info_terminated {behind : List UInt8 → List UInt8} {memory : List UInt8}
    {calls : List Http.Call} {getTest : Vector UInt8 512} {gh : Http.GlobalHttp} {s : Extraction}
    (hRun : calls.foldlM (Http.Call.run (Http.qsScan behind) memory)
    (Http.start getTest gh) = some s) :
    (info s).Terminated := by
  obtain ⟨⟨hUserId, hSId, hRId, hUrl⟩, hComment⟩ := Http.run_closed hRun
  exact
    { userId := terminated_of_closed hUserId
      sId := terminated_of_closed hSId
      rId := terminated_of_closed hRId
      comment := terminated_of_closed hComment
      url := terminated_of_closed hUrl }

/-- The body `__user=` with 25 digits, of which `user_id` has room for 19. -/
def userBody : List UInt8 := literal "__user=" ++ List.replicate 25 49 ++ [38]

theorem userBody_found : qsScan (fun _ => []) 20 (literal "__user") userBody (zeros 20) =
    ⟨(List.replicate 19 (49 : UInt8) ++ [0]).toArray, rfl⟩ := by
  have hFind : Http.qsFind (literal "__user") (userBody ++ [0]) = some (userBody ++ [0]) := by
    have hText : userBody ++ [0] = 95 :: (userBody ++ [0]).tail := rfl
    rw [hText, Http.qsFind, if_neg (by decide),
      show Http.qsStrncmp (literal "__user").length (literal "__user" ++ [0]) _ =
        some 0 by decide +kernel]
    rfl
  have hScan : Http.qsScanvalue (literal "__user") (userBody ++ [0]) (zeros 20) =
      some (true, ⟨(List.replicate 19 (49 : UInt8) ++ [0]).toArray, rfl⟩) := by
    rw [Http.qsScanvalue, show Http.queryStart (userBody ++ [0]) =
      some (userBody ++ [0]) by decide +kernel,
      Option.bind_eq_bind, Option.bind_some, hFind, Option.bind_some]
    decide +kernel
  rw [qsScan, hScan]

/-- The digits fill the array up to its terminator. -/
theorem info_terminated_user : ∃ s',
    (Http.refererCalls ++ [Http.Call.body ⟨Http.zeros 100, Http.zeros 30, []⟩ 15 33]).foldlM
      (Http.Call.run (qsScan fun _ => []) (literal "Referer:/status" ++ userBody))
      (Http.start (zeros 512) Http.startGh) = some s' ∧
    s'.parser.cInfo.userId.toList = List.replicate 19 49 ++ [0] ∧ (info s').Terminated := by
  have hRun : Http.refererCalls.foldlM (Http.Call.run (qsScan fun _ => [])
      (literal "Referer:/status" ++ userBody)) (Http.start (zeros 512) Http.startGh) =
        some Http.refererState := rfl
  have hBody : (literal "Referer:/status" ++ userBody).drop 15 = userBody := rfl
  obtain ⟨s', hWhole, hUser⟩ : ∃ s',
      (Http.refererCalls ++ [Http.Call.body ⟨zeros 100, zeros 30, []⟩ 15 33]).foldlM
        (Http.Call.run (qsScan fun _ => []) (literal "Referer:/status" ++ userBody))
        (Http.start (zeros 512) Http.startGh) = some s' ∧ s'.parser.cInfo.userId =
          qsScan (fun _ => []) 20 (literal "__user")
            ((literal "Referer:/status" ++ userBody).drop 15) (zeros 20) := by
    rw [List.foldlM_append, hRun, Option.bind_eq_bind, Option.bind_some, List.foldlM_cons]
    exact ⟨_, rfl, rfl⟩
  rw [hBody, userBody_found] at hUser
  exact ⟨s', hWhole, by rw [hUser]; rfl, info_terminated hWhole⟩

/-- From the bytes of the body to the rules: when the form has a value for the comment that has
room, `logic_query_match` lists the live rules that the decoded value satisfies. -/
theorem form_hits {behind : List UInt8 → List UInt8} {memory : List UInt8}
    {calls : List Http.Call} {getTest : Vector UInt8 512} {gh : Http.GlobalHttp} {s : Extraction}
    (hRun : calls.foldlM (Http.Call.run (Http.qsScan behind) memory)
    (Http.start getTest gh) = some s) (blocks : Http.Blocks) {offset : Nat} (length : Nat)
    {before : List UInt8} {fields : List Field}
    (hBody : memory.drop offset = before ++ formText fields) (hBegins : Http.Begins before fields)
    {keys : Http.FormKeys} (hKeys : Http.formKeys s.parser.cInfo.pType = some keys)
    (hShare : s.parser.cInfo.pType = .share →
      Http.startsWith (before ++ formText fields) (Http.literal "c="))
    (hStays : Http.Stays ("__user" :: keys.all) fields) {f : Field} {value : Coded}
    (hField : Http.lastField keys.comment fields = some f) (hValue : f.value = some value)
    (hRoom : value.text.length + 2 ≤ 10000) {rules : List Call}
    (hRules : ∀ rule ∈ rules, Ordinary rule.query) (hAdds : rules.countP Call.adds ≤ 10000)
    (hAddsN : rules.countP Call.addsN ≤ 10000)
    (hHits : (Slots.hits (slotsAfter rules) (cstr value.bytes)).length ≤ 32) : ∃ s' r,
      (calls ++ [Http.Call.body blocks offset length]).foldlM
      (Http.Call.run (Http.qsScan behind) memory)
        (Http.start getTest gh) = some s' ∧
      rules.foldlM Call.run noRules = some r ∧
      logicQueryMatch r (info s').comment =
        some (Slots.hits (slotsAfter rules) (cstr value.bytes)) := by
  obtain ⟨s', hOnBody, -, hComment, -⟩ :=
    Http.onBody_form behind blocks (Http.run_closed hRun) hBegins hKeys hShare hStays
  obtain ⟨r, hStores, hLists⟩ := calls_lists rules hRules hAdds hAddsN
  refine ⟨s', r, ?_, hStores, ?_⟩
  · rw [← hBody] at hOnBody
    rw [List.foldlM_append, hRun, Option.bind_eq_bind, Option.bind_some, List.foldlM_cons]
    exact congrArg (Option.bind · _) hOnBody
  · unfold Http.Extracts Http.Taken at hComment
    simp only [hField, hValue] at hComment
    obtain ⟨bytes, -, hHolds, hWhole⟩ := hComment
    rw [hWhole hRoom] at hHolds
    have hText : cstr (info s').comment = cstr value.bytes := by
      rw [info, cstr_of_holds hHolds, Acsm.cstr_eq (Http.zero_not_mem_cstr _)]
    have hList : logicQueryMatch r (info s').comment = some _ := hLists.hits (by rwa [hText])
    rwa [hText] at hList

/-- The status `a b` with the rule `a`. -/
theorem form_hits_status : ∃ s' r,
    (Http.refererCalls ++ [Http.Call.body ⟨Http.zeros 100, Http.zeros 30, []⟩ 15 12]).foldlM
      (Http.Call.run (Http.qsScan fun _ => []) Http.statusMemory)
      (Http.start (Http.zeros 512) Http.startGh) = some s' ∧
    [Call.addQueryRule [97]].foldlM Call.run noRules = some r ∧
    logicQueryMatch r (info s').comment =
      some (Slots.hits (slotsAfter [.addQueryRule [97]]) (cstr [97, 32, 98])) := by
  have hOrdinary : Ordinary [97] := by
    have hAll : 0 ∉ [(97 : UInt8)] ∧ [(97 : UInt8)].length < 256 ∧
      (operands [97]).length ≤ 3 ∧
        ∀ operand ∈ operands [97], NonBlank operand := by
      decide +kernel
    exact ⟨hAll.1, hAll.2.1, hAll.2.2.1, hAll.2.2.2⟩
  exact form_hits Http.refererRun ⟨Http.zeros 100, Http.zeros 30, []⟩ 12
    (show Http.statusMemory.drop 15 = [] ++ formText aSpaceB by decide) (.inl ⟨rfl, by decide⟩)
    (show Http.formKeys Http.refererState.parser.cInfo.pType = some _ from rfl) nofun
    (.inl (by decide)) rfl rfl (by decide)
    (by simpa [Call.query] using hOrdinary) (by decide) (by decide) (by decide +kernel)

end Request

end Shutter.Rules
