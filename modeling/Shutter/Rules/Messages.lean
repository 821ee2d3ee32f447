import Shutter.Library.CString
import Shutter.Rules.Config
import Shutter.Rules.Sound

/-! The frame of `startlisten` and `rule_process`.  A message is received into `buf`, its fields are
found with `strchr` alone, and the text of the rule is built in an array of 256 bytes before any
store is called. -/

namespace Shutter.Rules

open Shutter.Acsm Shutter.StringMatcher Shutter.RuleTrie Shutter.Library

/-- A call that `rule_process` makes on the stores. -/
inductive StoreCall
  | addQueryRule (query : List UInt8)
  | addQueryRuleN (query : List UInt8)
  | delQueryRule (query : List UInt8)
  | delQueryRuleN (query : List UInt8)
  | addStr (s : List UInt8)
  | delStr (s : List UInt8)
  | insertForUserid (rule : List UInt8)
  | insertForResourceid (rule : List UInt8)
  | del (rule : List UInt8)
  | addurl (url : List UInt8)
  | delurl (url : List UInt8)

def StoreCall.run (r : Stores) : StoreCall → Option Stores
  | .addQueryRule query => Rules.addQueryRule r query
  | .addQueryRuleN query => Rules.addQueryRuleN r query
  | .delQueryRule query => some (Rules.delQueryRule r query)
  | .delQueryRuleN query => some (Rules.delQueryRuleN r query)
  | .addStr s => r.onDown (Rules.addStr · s)
  | .delStr s => r.onDown (Rules.delStr · s)
  | .insertForUserid rule => r.onTrie (RuleTrie.insertForUserid · rule)
  | .insertForResourceid rule => r.onTrie (RuleTrie.insertForResourceid · rule)
  | .del rule => r.onTrie (RuleTrie.del · rule)
  | .addurl url => r.onAutomata (StringMatcher.addurl · url)
  | .delurl url => r.onAutomata (StringMatcher.delurl · url)

/-! ### The arrays -/

/-- `rule1`. -/
def buildRule1 (keyword : List UInt8) : Option (List UInt8) := do
  let rule1 ← store (cleared 256) 0 keyword
  text rule1

/-- `rule2`. -/
def buildRule2 (userid action : List UInt8) : Option (List UInt8) := do
  let rule2 ← store (cleared 256) 0 userid
  let rule2 ← copyBehind rule2 [32]
  let rule2 ← copyBehind rule2 action
  let rule2 ← copyBehind rule2 [32]
  let rule2 ← copyBehind rule2 [42]
  text rule2

/-- `rule3`. -/
def buildRule3 (resourceid action : List UInt8) : Option (List UInt8) := do
  let rule3 ← store (cleared 256) 0 [42]
  let rule3 ← store rule3 1 [32]
  let rule3 ← copyBehind rule3 action
  let rule3 ← copyBehind rule3 [32]
  let rule3 ← copyBehind rule3 resourceid
  text rule3

/-- `add_str` of a keyword and of its escaped form, which is built in `key`. -/
def keyCalls (rule1 : List UInt8) : Option (List StoreCall) :=
  if escapedBytes rule1 ≤ 1024 then
    some (.addStr rule1 :: (strtounicode rule1).toList.map .addStr)
  else none

/-! ### The calls of a message -/

/-- The branch for type 1. -/
def contentCalls (rule : List UInt8) : Option (List StoreCall) := do
  let keyword ← field 2 rule
  let state ← field 6 rule
  let workmode ← field 8 rule
  let upOrDown ← field 9 rule
  let rule1 ← buildRule1 (upToBar keyword)
  if workmode.head? = some 50 then
    if state.head? = some 49 then
      if upOrDown.head? = some 49 then some [.addQueryRule rule1]
      else if upOrDown.head? = some 50 then keyCalls rule1
      else some []
    else if state.head? = some 48 then some [.delQueryRule rule1, .delStr rule1]
    else some []
  else if workmode.head? = some 49 then
    if state.head? = some 49 then
      if upOrDown.head? = some 50 then do
        let calls ← keyCalls rule1
        some (.addQueryRuleN rule1 :: calls)
      else some [.addQueryRuleN rule1]
    else if state.head? = some 48 then some [.delQueryRuleN rule1]
    else some []
  else some []

/-- The branch for type 2. -/
def userCalls (rule : List UInt8) : Option (List StoreCall) := do
  let userid ← field 2 rule
  let action ← field 3 rule
  let state ← field 7 rule
  let _ ← field 8 rule
  let rule2 ← buildRule2 (upToBar userid) (upToBar action)
  if state.head? = some 49 then some [.insertForUserid rule2]
  else if state.head? = some 48 then some [.del rule2]
  else some []

/-- The branch for type 3. -/
def resourceCalls (rule : List UInt8) : Option (List StoreCall) := do
  let resourceid ← field 2 rule
  let action ← field 3 rule
  let state ← field 7 rule
  let _ ← field 8 rule
  let rule3 ← buildRule3 (upToBar resourceid) (upToBar action)
  if state.head? = some 49 then some [.insertForResourceid rule3]
  else if state.head? = some 48 then some [.del rule3]
  else some []

/-- The branch for type 4. -/
def urlCalls (rule : List UInt8) : Option (List StoreCall) := do
  let keyword ← field 2 rule
  let state ← field 6 rule
  let _ ← field 7 rule
  let rule1 ← buildRule1 (upToBar keyword)
  if state.head? = some 49 then some [.addurl rule1]
  else if state.head? = some 48 then some [.delurl rule1]
  else some []

/-- `rule_process` up to its calls on the stores. -/
def ruleCalls (rule : List UInt8) : Option (List StoreCall) :=
  if rule.head? = some 49 then contentCalls rule
  else if rule.head? = some 50 then userCalls rule
  else if rule.head? = some 51 then resourceCalls rule
  else if rule.head? = some 52 then urlCalls rule
  else some []

/-- The loop body of `startlisten` behind `recv`: `buf` is what the messages before have left. -/
def startlisten (buf msg : List UInt8) : Option (List StoreCall) := do
  let buf ← store buf 0 msg
  let buf ← store buf msg.length [0]
  let rule ← text buf
  ruleCalls rule

/-! ### Safe messages -/

/-- The fields of a message between its bars. -/
def fields (rule : List UInt8) : List (List UInt8) := rule.splitOnP (· == 124)

/-- The message has the fields of its type, and the text of its rule fits 256 bytes with the
terminator. -/
structure WellShaped (rule : List UInt8) : Prop where
  content : rule.head? = some 49 →
    10 ≤ (fields rule).length ∧ ((fields rule).getD 2 []).length < 256
  ids : rule.head? = some 50 ∨ rule.head? = some 51 →
    9 ≤ (fields rule).length ∧
      ((fields rule).getD 2 []).length + ((fields rule).getD 3 []).length + 3 < 256
  url : rule.head? = some 52 →
    8 ≤ (fields rule).length ∧ ((fields rule).getD 2 []).length < 256

/-- The message is handled safely: no search for a bar fails, no write and no string leaves its
array before the calls with which `rule_process` changes the stores, and a message with missing or
over-long fields leaves the stores unchanged. -/
def Handles (buf : List UInt8) (r : Stores) (msg : List UInt8) : Prop :=
  ∃ calls, startlisten buf msg = some calls ∧
    ruleProcess r (cstr msg) = calls.foldlM StoreCall.run r ∧
      (¬WellShaped (cstr msg) → ruleProcess r (cstr msg) = some r)

/-! ### The fields -/

theorem afterBar_eq (s : List UInt8) : fields s = upToBar s :: ((afterBar s).elim [] fields) := by
  have hPlain : ∀ b ∈ upToBar s, (b == 124) = false := fun b hb => by
    have hNe := List.mem_takeWhile_imp hb
    simpa using hNe
  have hSplit : s = upToBar s ++ s.dropWhile (· ≠ 124) := List.takeWhile_append_dropWhile.symm
  unfold afterBar
  split
  next hDrop =>
    rw [hDrop, List.append_nil] at hSplit
    rw [fields, List.splitOnP_eq_singleton (hSplit ▸ hPlain)]
    exact congrArg ([·]) hSplit
  next b rest hDrop =>
    have hBar : b = 124 := by
      have hHead := List.head?_dropWhile_not (p := (· ≠ 124)) (l := s)
      rw [hDrop] at hHead
      simpa using hHead
    rw [hDrop] at hSplit
    rw [fields, hSplit, List.splitOnP_append_cons_of_forall_mem hPlain b
      (by simp [hBar]), ← hSplit]
    rfl

/-- The field behind `n` bars is there when the message has more than `n` fields. -/
theorem field_spec (n : Nat) (s : List UInt8) :
    if n < (fields s).length then
      ∃ s', field n s = some s' ∧ upToBar s' = (fields s).getD n []
    else field n s = none := by
  induction n generalizing s with
  | zero =>
    rw [afterBar_eq, if_pos (by simp)]
    exact ⟨s, rfl, rfl⟩
  | succ n ih =>
    rw [afterBar_eq]
    cases hBar : afterBar s with
    | none =>
      rw [if_neg (by simp), field, hBar]
      rfl
    | some rest =>
      have hRest := ih rest
      simpa [field, hBar] using hRest

theorem field_some {n : Nat} {s : List UInt8} (h : n < (fields s).length) :
    ∃ s', field n s = some s' ∧ upToBar s' = (fields s).getD n [] := by
  have hSpec := field_spec n s
  rwa [if_pos h] at hSpec

theorem lt_of_field {n : Nat} {s s' : List UInt8} (h : field n s = some s') :
    n < (fields s).length := by
  by_contra hLt
  have hSpec := field_spec n s
  rw [if_neg hLt, h] at hSpec
  cases hSpec

theorem zero_not_mem_field {rule : List UInt8} (hRule : 0 ∉ rule) (n : Nat) :
    0 ∉ (fields rule).getD n [] := by
  by_cases hLt : n < (fields rule).length
  · obtain ⟨s, hField, hText⟩ := field_some hLt
    rw [← hText]
    exact fun hMem => hRule ((field_suffix hField).subset ((List.takeWhile_sublist _).subset hMem))
  · simp [List.getD, List.getElem?_eq_none (Nat.not_lt.mp hLt)]

/-! ### The texts -/

theorem buildRule1_eq {keyword : List UInt8} (h : 0 ∉ keyword) :
    buildRule1 keyword = fit256 keyword := by
  rw [buildRule1, store_cleared]
  split
  next => exact text_holding h
  next hLe => exact (if_neg fun hLt => hLe (Nat.le_of_lt hLt)).symm

theorem buildRule2_eq {userid action : List UInt8} (hId : 0 ∉ userid) (hAction : 0 ∉ action) :
    buildRule2 userid action = fit256 (joinFields userid action [42]) := by
  have hPieces : ∀ piece ∈ [[32], action, [32], [42]],
    (0 : UInt8) ∉ piece := by simp [hAction]
  rw [buildRule2, store_cleared]
  split
  next hLe =>
    have hRun := foldlM_copyBehind hPieces hId hLe
    simpa [joinFields, fit256, Option.bind_assoc] using hRun
  next hLe =>
    refine (if_neg fun hLt => hLe ?_).symm
    simp only [joinFields, List.length_append] at hLt
    omega

theorem buildRule3_eq {resourceid action : List UInt8} (hId : 0 ∉ resourceid)
    (hAction : 0 ∉ action) :
    buildRule3 resourceid action = fit256 (joinFields [42] action resourceid) := by
  have hPieces : ∀ piece ∈ [action, [32], resourceid], (0 : UInt8) ∉ piece := by
    simp [hAction, hId]
  have hRun := foldlM_copyBehind (n := 256) hPieces (s := [42, 32]) (by decide) (by decide)
  have hStar : store (cleared 256) 0 [42] = some (holding 256 [(42 : UInt8)]) := store_cleared
  have hSpace : store (holding 256 [42]) 1 [32] = some (holding 256 [(42 : UInt8), 32]) :=
    store_holding (s := [42]) (by decide) [32]
  rw [buildRule3, hStar, Option.bind_eq_bind, Option.bind_some, hSpace]
  simpa [joinFields, fit256, Option.bind_assoc] using hRun

theorem fit256_eq_some {s s' : List UInt8} : fit256 s = some s' ↔ s.length < 256 ∧ s = s' := by
  simp [fit256]

theorem length_joinFields (subject action resource : List UInt8) :
    (joinFields subject action resource).length =
      subject.length + action.length + resource.length + 2 := by
  simp only [joinFields, List.length_append, List.length_singleton]
  omega

/-- An escaped character takes six bytes for three. -/
theorem escapedBytes_le (s : List UInt8) : escapedBytes s ≤ 2 * s.length + 1 := by
  fun_induction escapedBytes s <;> simp only [List.length_cons, List.length_nil] <;> omega

theorem keyCalls_eq {rule1 : List UInt8} (h : rule1.length < 256) :
    keyCalls rule1 = some (.addStr rule1 :: (strtounicode rule1).toList.map .addStr) := by
  have hKey := escapedBytes_le rule1
  exact if_pos (by omega)

/-- The calls of `add_str` for a keyword. -/
theorem addKeyword_calls (r : Stores) (s : List UInt8) :
    ((r.onDown (addStr · s)).bind fun r =>
      ((strtounicode s).toList.map StoreCall.addStr).foldlM StoreCall.run r) =
      r.onDown (addKeyword · s) := by
  rw [Stores.onDown, Stores.onDown, addKeyword]
  cases addStr r.down s with
  | none => rfl
  | some d =>
    cases strtounicode s with
    | none => rfl
    | some key =>
      simp only [Option.toList_some, List.map_cons, List.map_nil, List.foldlM_cons,
        List.foldlM_nil, Option.bind_eq_bind, Option.bind_some, StoreCall.run, Stores.onDown,
        Option.pure_def, Option.bind_fun_some]

/-! ### The calls -/

section Calls

variable {rule : List UInt8} (hRule : 0 ∉ rule)

include hRule

theorem contentCalls_isSome : (contentCalls rule).isSome = true ↔
    10 ≤ (fields rule).length ∧ ((fields rule).getD 2 []).length < 256 := by
  have hKeyword := zero_not_mem_field hRule 2
  constructor
  · intro h
    obtain ⟨calls, h⟩ := Option.isSome_iff_exists.mp h
    simp only [contentCalls, Option.bind_eq_bind, Option.bind_eq_some_iff] at h
    obtain ⟨keyword, hField, _, -, _, -, upOrDown, hLast, rule1, hBuild, -⟩ := h
    obtain ⟨keyword', hField', hText⟩ := field_some (lt_of_field hField)
    obtain rfl := Option.some.inj (hField.symm.trans hField')
    rw [hText, buildRule1_eq hKeyword] at hBuild
    exact ⟨lt_of_field hLast, (fit256_eq_some.mp hBuild).1⟩
  · rintro ⟨hLength, hFits⟩
    obtain ⟨keyword, hField, hText⟩ := field_some (s := rule) (n := 2) (by omega)
    obtain ⟨state, hState, -⟩ := field_some (s := rule) (n := 6) (by omega)
    obtain ⟨workmode, hMode, -⟩ := field_some (s := rule) (n := 8) (by omega)
    obtain ⟨upOrDown, hDirection, -⟩ := field_some (s := rule) (n := 9) (by omega)
    have hBuild : buildRule1 (upToBar keyword) = some ((fields rule).getD 2 []) := by
      rw [hText, buildRule1_eq hKeyword]
      exact if_pos hFits
    simp only [contentCalls, hField, hState, hMode, hDirection, hBuild, keyCalls_eq hFits,
      Option.bind_eq_bind, Option.bind_some]
    split_ifs <;> rfl

theorem urlCalls_isSome : (urlCalls rule).isSome = true ↔
    8 ≤ (fields rule).length ∧ ((fields rule).getD 2 []).length < 256 := by
  have hKeyword := zero_not_mem_field hRule 2
  constructor
  · intro h
    obtain ⟨calls, h⟩ := Option.isSome_iff_exists.mp h
    simp only [urlCalls, Option.bind_eq_bind, Option.bind_eq_some_iff] at h
    obtain ⟨keyword, hField, _, -, webtype, hLast, rule1, hBuild, -⟩ := h
    obtain ⟨keyword', hField', hText⟩ := field_some (lt_of_field hField)
    obtain rfl := Option.some.inj (hField.symm.trans hField')
    rw [hText, buildRule1_eq hKeyword] at hBuild
    exact ⟨lt_of_field hLast, (fit256_eq_some.mp hBuild).1⟩
  · rintro ⟨hLength, hFits⟩
    obtain ⟨keyword, hField, hText⟩ := field_some (s := rule) (n := 2) (by omega)
    obtain ⟨state, hState, -⟩ := field_some (s := rule) (n := 6) (by omega)
    obtain ⟨webtype, hWebtype, -⟩ := field_some (s := rule) (n := 7) (by omega)
    have hBuild : buildRule1 (upToBar keyword) = some ((fields rule).getD 2 []) := by
      rw [hText, buildRule1_eq hKeyword]
      exact if_pos hFits
    simp only [urlCalls, hField, hState, hWebtype, hBuild, Option.bind_eq_bind, Option.bind_some]
    split_ifs <;> rfl

/-- The branches for the types 2 and 3 differ in the array that they build. -/
theorem idCalls_isSome {calls : List UInt8 → Option (List StoreCall)}
    (build : List UInt8 → List UInt8 → Option (List UInt8))
    (finish : List UInt8 → List UInt8 → List StoreCall)
    (hCalls : ∀ rule, calls rule = do
      let id ← field 2 rule
      let action ← field 3 rule
      let state ← field 7 rule
      let _ ← field 8 rule
      let built ← build (upToBar id) (upToBar action)
      some (finish state built))
    (hBuild : ∀ id action, 0 ∉ id → 0 ∉ action →
      ((build id action).isSome = true ↔ id.length + action.length + 3 < 256)) :
    (calls rule).isSome = true ↔ 9 ≤ (fields rule).length ∧
      ((fields rule).getD 2 []).length + ((fields rule).getD 3 []).length + 3 < 256 := by
  have hBuilt := hBuild _ _ (zero_not_mem_field hRule 2) (zero_not_mem_field hRule 3)
  rw [hCalls, ← hBuilt]
  constructor
  · intro h
    obtain ⟨calls, h⟩ := Option.isSome_iff_exists.mp h
    simp only [Option.bind_eq_bind, Option.bind_eq_some_iff] at h
    obtain ⟨id, hId, action, hAction, _, -, webtype, hLast, built, hArray, -⟩ := h
    obtain ⟨id', hId', hIdText⟩ := field_some (lt_of_field hId)
    obtain ⟨action', hAction', hActionText⟩ := field_some (lt_of_field hAction)
    obtain rfl := Option.some.inj (hId.symm.trans hId')
    obtain rfl := Option.some.inj (hAction.symm.trans hAction')
    rw [hIdText, hActionText] at hArray
    exact ⟨lt_of_field hLast, Option.isSome_iff_exists.mpr ⟨built, hArray⟩⟩
  · rintro ⟨hLength, hFits⟩
    obtain ⟨built, hArray⟩ := Option.isSome_iff_exists.mp hFits
    obtain ⟨id, hId, hIdText⟩ := field_some (s := rule) (n := 2) (by omega)
    obtain ⟨action, hAction, hActionText⟩ := field_some (s := rule) (n := 3) (by omega)
    obtain ⟨state, hState, -⟩ := field_some (s := rule) (n := 7) (by omega)
    obtain ⟨webtype, hWebtype, -⟩ := field_some (s := rule) (n := 8) (by omega)
    rw [← hIdText, ← hActionText] at hArray
    simp only [hId, hAction, hState, hWebtype, hArray, Option.bind_eq_bind, Option.bind_some,
      Option.isSome_some]

theorem userCalls_isSome : (userCalls rule).isSome = true ↔ 9 ≤ (fields rule).length ∧
    ((fields rule).getD 2 []).length + ((fields rule).getD 3 []).length + 3 < 256 := by
  refine idCalls_isSome hRule buildRule2 (fun state rule2 =>
    if state.head? = some 49 then [.insertForUserid rule2]
    else if state.head? = some 48 then [.del rule2]
    else []) (fun rule => ?_) fun id action hId hAction => ?_
  · simp only [userCalls, apply_ite some]
  · rw [buildRule2_eq hId hAction, Option.isSome_iff_exists]
    simp only [fit256_eq_some, exists_and_left, exists_eq', and_true, length_joinFields,
      List.length_singleton]

theorem resourceCalls_isSome : (resourceCalls rule).isSome = true ↔ 9 ≤ (fields rule).length ∧
    ((fields rule).getD 2 []).length + ((fields rule).getD 3 []).length + 3 < 256 := by
  refine idCalls_isSome hRule buildRule3 (fun state rule3 =>
    if state.head? = some 49 then [.insertForResourceid rule3]
    else if state.head? = some 48 then [.del rule3]
    else []) (fun rule => ?_) fun id action hId hAction => ?_
  · simp only [resourceCalls, apply_ite some]
  · rw [buildRule3_eq hId hAction, Option.isSome_iff_exists]
    simp only [fit256_eq_some, exists_and_left, exists_eq', and_true, length_joinFields,
      List.length_singleton]
    omega

/-- `rule_process` reaches its calls on the well shaped messages, and on no others. -/
theorem ruleCalls_isSome : (ruleCalls rule).isSome = true ↔ WellShaped rule := by
  have hContent := contentCalls_isSome hRule
  have hUser := userCalls_isSome hRule
  have hResource := resourceCalls_isSome hRule
  have hUrl := urlCalls_isSome hRule
  unfold ruleCalls
  constructor
  · intro h
    refine ⟨fun hType => ?_, fun hType => ?_, fun hType => ?_⟩
    · rwa [if_pos hType, hContent] at h
    · rcases hType with hType | hType
      · rwa [hType, if_neg (by decide), if_pos rfl, hUser] at h
      · rwa [hType, if_neg (by decide), if_neg (by decide), if_pos rfl, hResource] at h
    · rwa [hType, if_neg (by decide), if_neg (by decide), if_neg (by decide),
        if_pos rfl, hUrl] at h
  · intro h
    split_ifs with h₁ h₂ h₃ h₄
    · exact hContent.mpr (h.content h₁)
    · exact hUser.mpr (h.ids (Or.inl h₂))
    · exact hResource.mpr (h.ids (Or.inr h₃))
    · exact hUrl.mpr (h.url h₄)
    · rfl

/-! ### The whole of `rule_process` -/

theorem zero_not_mem_upToBar {n : Nat} {s : List UInt8} (h : field n rule = some s) :
    0 ∉ upToBar s :=
  fun hMem => hRule ((field_suffix h).subset ((List.takeWhile_sublist _).subset hMem))

theorem processContent_calls (r : Stores) : (contentFields rule >>= processContent r) =
    (contentCalls rule >>= List.foldlM StoreCall.run r) := by
  unfold contentFields contentCalls
  cases hKeyword : field 2 rule with
  | none => rfl
  | some keyword =>
    simp only [buildRule1_eq (zero_not_mem_upToBar hRule hKeyword), Option.bind_eq_bind,
      Option.bind_some, Option.bind_assoc]
    refine Option.bind_congr fun state _ => Option.bind_congr fun workmode _ =>
      Option.bind_congr fun upOrDown _ => Option.bind_congr fun rule1 hFit => ?_
    obtain ⟨hFits, heq⟩ := fit256_eq_some.mp hFit
    rw [keyCalls_eq (heq ▸ hFits)]
    unfold processContent
    simp only
    split_ifs <;> simp [StoreCall.run, addKeyword_calls]

theorem processUser_calls (r : Stores) : (idFields rule >>= processUser r) =
    (userCalls rule >>= List.foldlM StoreCall.run r) := by
  unfold idFields userCalls
  cases hId : field 2 rule with
  | none => simp
  | some id =>
    cases hAction : field 3 rule with
    | none => simp
    | some action =>
      simp only [buildRule2_eq (zero_not_mem_upToBar hRule hId)
        (zero_not_mem_upToBar hRule hAction), Option.bind_eq_bind, Option.bind_some,
        Option.bind_assoc, processUser, processTrie]
      refine Option.bind_congr fun state _ => Option.bind_congr fun _ _ =>
        Option.bind_congr fun rule2 _ => ?_
      split_ifs <;> simp [StoreCall.run]

theorem processResource_calls (r : Stores) : (idFields rule >>= processResource r) =
    (resourceCalls rule >>= List.foldlM StoreCall.run r) := by
  unfold idFields resourceCalls
  cases hId : field 2 rule with
  | none => simp
  | some id =>
    cases hAction : field 3 rule with
    | none => simp
    | some action =>
      simp only [buildRule3_eq (zero_not_mem_upToBar hRule hId)
        (zero_not_mem_upToBar hRule hAction), Option.bind_eq_bind, Option.bind_some,
        Option.bind_assoc, processResource, processTrie]
      refine Option.bind_congr fun state _ => Option.bind_congr fun _ _ =>
        Option.bind_congr fun rule3 _ => ?_
      split_ifs <;> simp [StoreCall.run]

theorem processUrl_calls (r : Stores) : (urlFields rule >>= processUrl r) =
    (urlCalls rule >>= List.foldlM StoreCall.run r) := by
  unfold urlFields urlCalls
  cases hKeyword : field 2 rule with
  | none => rfl
  | some keyword =>
    simp only [buildRule1_eq (zero_not_mem_upToBar hRule hKeyword), Option.bind_eq_bind,
      Option.bind_some, Option.bind_assoc, processUrl]
    refine Option.bind_congr fun state _ => Option.bind_congr fun _ _ =>
      Option.bind_congr fun rule1 _ => ?_
    split_ifs <;> simp [StoreCall.run]

/-- `rule_process` is its frame with the calls behind it. -/
theorem ruleProcess_eq (r : Stores) :
    ruleProcess r rule = ruleCalls rule >>= List.foldlM StoreCall.run r := by
  unfold ruleProcess ruleCalls
  split_ifs
  · exact processContent_calls hRule r
  · exact processUser_calls hRule r
  · exact processResource_calls hRule r
  · exact processUrl_calls hRule r
  · rfl

end Calls

/-! ### The buffer -/

theorem zero_not_mem_cstr (s : List UInt8) : 0 ∉ cstr s := fun hMem => by
  have hNe := List.mem_takeWhile_imp hMem
  simp at hNe

/-- What is left of the messages before does not matter. -/
theorem startlisten_eq {buf msg : List UInt8} (hBuf : buf.length = 1024) :
    startlisten buf msg = if msg.length < 1024 then ruleCalls (cstr msg) else none := by
  unfold startlisten
  by_cases hShort : msg.length ≤ 1024
  · rw [store_zero (by omega), Option.bind_eq_bind, Option.bind_some]
    split
    next hLt =>
      obtain ⟨b, rest, hRest⟩ : ∃ b rest, buf.drop msg.length = b :: rest :=
        List.exists_cons_of_ne_nil fun h => by
          have hLe := List.drop_eq_nil_iff.mp h
          omega
      have hWrite : store (msg ++ b :: rest) msg.length [0] = some (msg ++ [0] ++ rest) :=
        store_gap msg [b] rest [0] (Nat.le_refl 1)
      rw [hRest, hWrite, Option.bind_some, List.append_assoc, List.singleton_append,
        text_terminated, Option.bind_some]
      rfl
    next hLt =>
      rw [store_eq_none]
      · rfl
      · rw [List.length_append, List.length_drop, List.length_singleton]
        omega
  · rw [store_eq_none (by omega), if_neg (by omega)]
    rfl

/-- A message is handled safely exactly when it leaves room for the terminator in `buf`, has the
fields of its type, and the text of its rule fits. -/
theorem handles_iff {buf : List UInt8} (hBuf : buf.length = 1024) (r : Stores) (msg : List UInt8) :
    Handles buf r msg ↔ msg.length < 1024 ∧ WellShaped (cstr msg) := by
  have hShaped := ruleCalls_isSome (zero_not_mem_cstr msg)
  unfold Handles
  rw [startlisten_eq hBuf]
  constructor
  · rintro ⟨calls, hCalls, -⟩
    split at hCalls
    next hLt => exact ⟨hLt, hShaped.mp (Option.isSome_iff_exists.mpr ⟨calls, hCalls⟩)⟩
    next => cases hCalls
  · rintro ⟨hLt, hWell⟩
    obtain ⟨calls, hCalls⟩ := Option.isSome_iff_exists.mp (hShaped.mpr hWell)
    refine ⟨calls, by rw [if_pos hLt, hCalls], ?_, fun hNot => absurd hWell hNot⟩
    rw [ruleProcess_eq (zero_not_mem_cstr msg), hCalls]
    rfl

/-- The message `4|1|a.b|c|s|e|1|00` adds a url. -/
theorem handles_iff_url : Handles (List.replicate 1024 0) noRules
    [52, 124, 49, 124, 97, 46, 98, 124, 99, 124, 115, 124, 101, 124, 49, 124, 48, 48] :=
  (handles_iff List.length_replicate noRules _).mpr
    ⟨by decide, by decide, by decide, by decide⟩

/-- The message `1` has no bar. -/
theorem handles_fails : ∃ r, initLoop = some r ∧ ¬Handles (List.replicate 1024 0) r [49] := by
  obtain ⟨r, hInit, -⟩ := initLoop_spec
  refine ⟨r, hInit, ?_⟩
  rintro ⟨calls, hCalls, -⟩
  have hNone : ruleCalls (cstr [49]) = none := rfl
  rw [startlisten_eq List.length_replicate, if_pos (by decide), hNone] at hCalls
  cases hCalls

end Shutter.Rules
