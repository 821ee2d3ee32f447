import Shutter.Rules.Decision
import Shutter.RuleTrie.Alphabet

/-! The strings that rule messages and requests hand to the trie.  Neither the fields of a message
nor the identifiers of a request are looked at before, and `NotFound` takes the place of a missing
identifier. -/

namespace Shutter.Rules

open Shutter.Acsm Shutter.RuleTrie Shutter.Library

/-- The fields of a message of type 2 or 3, or a request that is checked. -/
inductive TrieUse where
  | user (f : IdFields)
  | resource (f : IdFields)
  | check (c : ConnectionInfo)

/-- A use of the trie.  It fails where `c2i` has no result. -/
def TrieUse.run (r : Stores) : TrieUse → Option Stores
  | .user f => processUser r f
  | .resource f => processResource r f
  | .check c => (trieChkRule r.trie c.userId c.sId c.pType c.rId).map fun _ => r

/-- The values of `p_type`: none, and `FRIEND` to `PLAY_VIDEO`. -/
def pageTypes : List Int := (List.range 24).map Int.ofNat

/-- The strings fit their arrays. -/
def TrieUse.Fits : TrieUse → Prop
  | .user f => (joinFields f.id f.action [42]).length < 256
  | .resource f => (joinFields [42] f.action f.id).length < 256
  | .check c => c.pType ∈ pageTypes ∧ c.userId.length < 20 ∧ c.sId.length < 20 ∧
      c.rId.length < 52

/-- An identifier that is there, and has digits, `*` and spaces only. -/
def Identifier (id : List UInt8) : Prop := id ≠ [] ∧ Spelled id

/-- The strings that go to the trie have digits, `*` and spaces only, and no identifier of a request
is missing. -/
def TrieUse.Spelled : TrieUse → Prop
  | .user f | .resource f =>
    f.state = some 49 ∨ f.state = some 48 → RuleTrie.Spelled f.id ∧ RuleTrie.Spelled f.action
  | .check c => c.pType = 0 ∨ Identifier c.userId ∧ Identifier c.sId ∧ Identifier c.rId

theorem spelled_orNotFound {id : List UInt8} : RuleTrie.Spelled (orNotFound id) ↔
    Identifier id := by
  unfold orNotFound Identifier
  split
  · rename_i hEmpty
    simp only [hEmpty, ne_eq, not_true, false_and, iff_false]
    decide
  · rename_i hNonempty
    exact (and_iff_right hNonempty).symm

theorem length_orNotFound {id : List UInt8} {n : Nat} (hn : 8 ≤ n) (h : id.length ≤ n) :
    (orNotFound id).length ≤ n := by
  unfold orNotFound
  split
  · exact hn
  · exact h

theorem decimal_pageType : ∀ k ∈ pageTypes,
    (decimal k).length ≤ 2 ∧ RuleTrie.Spelled (decimal k) := by
  decide +kernel

/-! ### Strings of digits, `*` and spaces -/

theorem spelled_trieChkRule {t : Trie} (hRoot : t.trieTreeRoot ≠ .null)
    {subject action resource : List UInt8}
    (h : RuleTrie.Spelled (joinFields subject action resource)) :
    ∃ out, trieChkRule_ t subject action resource (-1) = some out := by
  obtain ⟨w, hw⟩ := RuleTrie.Spelled.exists_word h
  obtain ⟨out, hMatch, -⟩ := match_visible hRoot w (false, -1)
  exact ⟨out, by rw [trieChkRule_, match_tupe, hw, hMatch]⟩

theorem processTrie_spelled {r : Stores} (hRoot : r.trie.trieTreeRoot ≠ .null)
    {state : Option UInt8} {insert : Trie → List UInt8 → Option Trie} {rule : List UInt8}
    (hFits : rule.length < 256)
    (hInsert : ∀ w : Word, ∃ t, insert r.trie (w.map i2c) = some t ∧ t.trieTreeRoot ≠ .null)
    (h : state = some 49 ∨ state = some 48 → RuleTrie.Spelled rule) :
    ∃ r', processTrie r state insert rule = some r' ∧ r'.trie.trieTreeRoot ≠ .null := by
  simp only [processTrie, fit256, if_pos hFits, Option.bind_eq_bind, Option.bind_some]
  by_cases hOne : state = some 49
  · obtain ⟨w, rfl⟩ := RuleTrie.Spelled.exists_word (h (Or.inl hOne))
    obtain ⟨t, hRun, hNull⟩ := hInsert w
    exact ⟨{ r with trie := t }, by rw [if_pos hOne, Stores.onTrie, hRun]; rfl, hNull⟩
  · rw [if_neg hOne]
    by_cases hZero : state = some 48
    · obtain ⟨w, rfl⟩ := RuleTrie.Spelled.exists_word (h (Or.inr hZero))
      obtain ⟨t, hRun, hNull⟩ := del_word w hRoot
      exact ⟨{ r with trie := t }, by rw [if_pos hZero, Stores.onTrie, hRun]; rfl, hNull⟩
    · exact ⟨r, if_neg hZero, hRoot⟩

theorem spelled_star : RuleTrie.Spelled [42] := by decide

theorem TrieUse.Spelled.run {use : TrieUse} (h : use.Spelled) (hFits : use.Fits) {r : Stores}
    (hRoot : r.trie.trieTreeRoot ≠ .null) :
    ∃ r', use.run r = some r' ∧ r'.trie.trieTreeRoot ≠ .null := by
  cases use with
  | user f =>
    apply processTrie_spelled hRoot hFits
    · intro w
      obtain ⟨root, hRun, hNull⟩ := insertPath_of_word r.trie.globalPatternIdForUserid w hRoot
      exact ⟨_, by rw [insertForUserid, hRun]; rfl, hNull⟩
    · intro hState
      exact spelled_joinFields.mpr ⟨(h hState).1, (h hState).2, spelled_star⟩
  | resource f =>
    apply processTrie_spelled hRoot hFits
    · intro w
      obtain ⟨root, hRun, hNull⟩ :=
        insertPath_of_word r.trie.globalPatternIdForResourceid w hRoot
      exact ⟨_, by rw [insertForResourceid, hRun]; rfl, hNull⟩
    · intro hState
      exact spelled_joinFields.mpr ⟨spelled_star, (h hState).2, (h hState).1⟩
  | check c =>
    refine ⟨r, ?_, hRoot⟩
    rw [TrieUse.run]
    by_cases hType : c.pType = 0
    · rw [trieChkRule, if_pos hType]
      rfl
    · obtain ⟨hUser, hS, hR⟩ := h.resolve_left hType
      have hAction := (decimal_pageType c.pType hFits.1).2
      obtain ⟨a, hA⟩ := spelled_trieChkRule hRoot (spelled_joinFields.mpr
        ⟨spelled_orNotFound.mpr hUser, hAction, spelled_orNotFound.mpr hS⟩)
      obtain ⟨b, hB⟩ := spelled_trieChkRule hRoot (spelled_joinFields.mpr
        ⟨spelled_orNotFound.mpr hUser, hAction, spelled_orNotFound.mpr hR⟩)
      rw [trieChkRule, if_neg hType, hA, Option.bind_eq_bind, Option.bind_some, hB]
      rfl

/-! ### Other strings -/

/-- What is spelled at the start of two strings is at the start of what is spelled in each. -/
theorem takeWhile_append_start (s s' : List UInt8) :
    (s ++ s').takeWhile InAlphabet <+: s.takeWhile InAlphabet ++ s'.takeWhile InAlphabet := by
  rw [List.takeWhile_append]
  split
  · rename_i hAll
    rw [(List.takeWhile_prefix _).eq_of_length hAll]
  · exact List.prefix_append _ _

/-- The message with the beginnings of its fields that are spelled leads to the first other byte. -/
theorem takeWhile_joinFields_prefix (subject action resource : List UInt8) :
    (joinFields subject action resource).takeWhile InAlphabet <+:
      joinFields (subject.takeWhile InAlphabet) (action.takeWhile InAlphabet)
        (resource.takeWhile InAlphabet) := by
  have hStep : ∀ s s' s'' : List UInt8, s'.takeWhile InAlphabet <+: s'' →
      (s ++ s').takeWhile InAlphabet <+: s.takeWhile InAlphabet ++ s'' := fun s s' s'' h =>
    (takeWhile_append_start s s').trans ((List.prefix_append_right_inj _).mpr h)
  have hSpace : ([32] : List UInt8).takeWhile InAlphabet = [32] := by decide
  have hResource := hStep [32] resource _ List.prefix_rfl
  have hAction := hStep [32] _ _ (hStep action _ _ hResource)
  simpa only [joinFields, List.append_assoc, hSpace] using hStep subject _ _ hAction

theorem length_takeWhile_joinFields (subject action resource : List UInt8) :
    (joinFields (subject.takeWhile InAlphabet) (action.takeWhile InAlphabet)
      (resource.takeWhile InAlphabet)).length ≤ (joinFields subject action resource).length := by
  have hSubject := (List.takeWhile_prefix (l := subject) InAlphabet).length_le
  have hAction := (List.takeWhile_prefix (l := action) InAlphabet).length_le
  have hResource := (List.takeWhile_prefix (l := resource) InAlphabet).length_le
  simp only [joinFields, List.length_append]
  omega

theorem processTrie_insert {rule : List UInt8} (hFits : rule.length < 256)
    (hSpelled : RuleTrie.Spelled rule) {insert : Trie → List UInt8 → Option Trie} {id : Int}
    (hInsert : ∀ root, insertPath id newNode rule = some root →
      ∃ t, insert initTrieTree rule = some t ∧ t.trieTreeRoot = root) :
    ∃ r, processTrie noRules (some 49) insert rule = some r ∧
      insertPath id newNode rule = some r.trie.trieTreeRoot := by
  obtain ⟨w, rfl⟩ := RuleTrie.Spelled.exists_word hSpelled
  obtain ⟨patternId, child, hPath⟩ := insertPath_newNode id w
  obtain ⟨t, hRun, hRoot⟩ := hInsert _ hPath
  refine ⟨{ noRules with trie := t }, ?_, by rw [hPath, ← hRoot]⟩
  simp only [processTrie, fit256, if_pos hFits, Option.bind_eq_bind, Option.bind_some, if_true,
    Stores.onTrie]
  rw [show noRules.trie = initTrieTree from rfl, hRun]
  rfl

theorem processUser_insert {id action : List UInt8}
    (hFits : (joinFields id action [42]).length < 256)
    (hSpelled : RuleTrie.Spelled (joinFields id action [42])) :
    ∃ r, processUser noRules ⟨id, action, some 49⟩ = some r ∧
      insertPath 0 newNode (joinFields id action [42]) = some r.trie.trieTreeRoot := by
  apply processTrie_insert hFits hSpelled
  intro root hPath
  refine ⟨⟨root, 2, 1⟩, ?_, rfl⟩
  simp only [insertForUserid, initTrieTree, hPath]
  rfl

theorem processResource_insert {id action : List UInt8}
    (hFits : (joinFields [42] action id).length < 256)
    (hSpelled : RuleTrie.Spelled (joinFields [42] action id)) :
    ∃ r, processResource noRules ⟨id, action, some 49⟩ = some r ∧
      insertPath 1 newNode (joinFields [42] action id) = some r.trie.trieTreeRoot := by
  apply processTrie_insert hFits hSpelled
  intro root hPath
  refine ⟨⟨root, 0, 3⟩, ?_, rfl⟩
  simp only [insertForResourceid, initTrieTree, hPath]
  rfl

theorem exists_path {s s' : List UInt8} (h : ¬RuleTrie.Spelled s)
    (hPrefix : s.takeWhile InAlphabet <+: s') (h' : RuleTrie.Spelled s') :
    ∃ (w v : Word) (c : UInt8) (rest : List UInt8), s = w.map i2c ++ c :: rest ∧
      ¬InAlphabet c ∧
      s' = (w ++ v).map i2c := by
  obtain ⟨w, c, rest, hTake, hs, hc⟩ := exists_first h
  obtain ⟨s'', rfl⟩ := hPrefix
  obtain ⟨v, rfl⟩ := RuleTrie.Spelled.exists_word (spelled_append.mp h').2
  exact ⟨w, v, c, rest, hs, hc, by rw [hTake, List.map_append]⟩

/-- The use fails behind a run of uses with digits, `*` and spaces only. -/
def TrieUse.Fails (use : TrieUse) : Prop :=
  ∃ (uses : List TrieUse) (r : Stores), (∀ u ∈ uses, u.Fits ∧ u.Spelled) ∧
    uses.foldlM TrieUse.run noRules = some r ∧ use.run r = none

theorem TrieUse.Fails.of_one {use use' : TrieUse} {r : Stores} (h' : use'.Fits ∧ use'.Spelled)
    (hRun' : use'.run noRules = some r) (hRun : use.run r = none) : use.Fails := by
  refine ⟨[use'], r, ?_, ?_, hRun⟩
  · intro u hu
    rwa [List.mem_singleton.mp hu]
  · rw [List.foldlM_cons, hRun']
    rfl

/-- A message with another byte fails at once if it inserts, and behind a message that leads to the
byte if it deletes. -/
theorem TrieUse.Fails.message {use use' : TrieUse} {rule rule' : List UInt8} {state : Option UInt8}
    {insert : Trie → List UInt8 → Option Trie} {r : Stores} {id : Int}
    (hUse : ∀ r, use.run r = processTrie r state insert rule) (hRule : ¬RuleTrie.Spelled rule)
    (hState : state = some 49 ∨ state = some 48) (hInsert : insert noRules.trie rule = none)
    (hPrefix : rule.takeWhile InAlphabet <+: rule') (hRule' : RuleTrie.Spelled rule')
    (h' : use'.Fits ∧ use'.Spelled) (hRun' : use'.run noRules = some r)
    (hPath : insertPath id newNode rule' = some r.trie.trieTreeRoot) : use.Fails := by
  rcases hState with rfl | rfl
  · refine ⟨[], noRules, by simp, rfl, ?_⟩
    rw [hUse]
    simp [processTrie, fit256, Stores.onTrie, hInsert]
  · apply TrieUse.Fails.of_one h' hRun'
    obtain ⟨w, v, c, rest, rfl, hc, rfl⟩ := exists_path hRule hPrefix hRule'
    have hDel : del r.trie (w.map i2c ++ c :: rest) = none := by
      rw [del, follow_not_spelled id w v hc rest hPath]
      rfl
    rw [hUse]
    simp [processTrie, fit256, Stores.onTrie, hDel]

theorem TrieUse.Fails.user {f : IdFields} (hFits : (TrieUse.user f).Fits)
    (h : ¬(TrieUse.user f).Spelled) : (TrieUse.user f).Fails := by
  obtain ⟨id, action, state⟩ := f
  obtain ⟨hState, hNot⟩ := Classical.not_imp.mp h
  have hRule : ¬RuleTrie.Spelled (joinFields id action [42]) := fun hAll =>
    hNot ⟨(spelled_joinFields.mp hAll).1, (spelled_joinFields.mp hAll).2.1⟩
  have hInsert : insertForUserid noRules.trie (joinFields id action [42]) = none := by
    rw [insertForUserid]
    exact congrArg (Option.bind · _) (insertPath_not_spelled 0 newNode hRule)
  have hStar : ([42] : List UInt8).takeWhile InAlphabet = [42] := by decide
  have hPrefix := takeWhile_joinFields_prefix id action [42]
  have hShorter := length_takeWhile_joinFields id action [42]
  rw [hStar] at hPrefix hShorter
  have hFits' := Nat.lt_of_le_of_lt hShorter hFits
  have hSpelled := spelled_joinFields.mpr
    ⟨spelled_takeWhile id, spelled_takeWhile action, spelled_star⟩
  obtain ⟨r, hRun, hPath⟩ := processUser_insert hFits' hSpelled
  have hUse :
    (TrieUse.user ⟨id.takeWhile InAlphabet, action.takeWhile InAlphabet, some 49⟩).Fits ∧
      (TrieUse.user ⟨id.takeWhile InAlphabet, action.takeWhile InAlphabet, some 49⟩).Spelled :=
    ⟨hFits', fun _ => ⟨spelled_takeWhile id, spelled_takeWhile action⟩⟩
  exact TrieUse.Fails.message (fun _ => rfl) hRule hState hInsert hPrefix hSpelled hUse hRun hPath

theorem TrieUse.Fails.resource {f : IdFields} (hFits : (TrieUse.resource f).Fits)
    (h : ¬(TrieUse.resource f).Spelled) : (TrieUse.resource f).Fails := by
  obtain ⟨id, action, state⟩ := f
  obtain ⟨hState, hNot⟩ := Classical.not_imp.mp h
  have hRule : ¬RuleTrie.Spelled (joinFields [42] action id) := fun hAll =>
    hNot ⟨(spelled_joinFields.mp hAll).2.2, (spelled_joinFields.mp hAll).2.1⟩
  have hInsert : insertForResourceid noRules.trie (joinFields [42] action id) = none := by
    rw [insertForResourceid]
    exact congrArg (Option.bind · _) (insertPath_not_spelled 1 newNode hRule)
  have hStar : ([42] : List UInt8).takeWhile InAlphabet = [42] := by decide
  have hPrefix := takeWhile_joinFields_prefix [42] action id
  have hShorter := length_takeWhile_joinFields [42] action id
  rw [hStar] at hPrefix hShorter
  have hFits' := Nat.lt_of_le_of_lt hShorter hFits
  have hSpelled := spelled_joinFields.mpr
    ⟨spelled_star, spelled_takeWhile action, spelled_takeWhile id⟩
  obtain ⟨r, hRun, hPath⟩ := processResource_insert hFits' hSpelled
  have hUse :
      (TrieUse.resource ⟨id.takeWhile InAlphabet, action.takeWhile InAlphabet,
        some 49⟩).Fits ∧
      (TrieUse.resource ⟨id.takeWhile InAlphabet, action.takeWhile InAlphabet,
        some 49⟩).Spelled :=
    ⟨hFits', fun _ => ⟨spelled_takeWhile id, spelled_takeWhile action⟩⟩
  exact TrieUse.Fails.message (fun _ => rfl) hRule hState hInsert hPrefix hSpelled hUse hRun hPath

/-- A tuple with another byte, behind the insertion of a rule that leads there. -/
theorem trieChkRule_none {subject action resource : List UInt8}
    (hFits : (joinFields subject action resource).length ≤ 252)
    (h : ¬RuleTrie.Spelled (joinFields subject action resource)) :
    ∃ use r, TrieUse.Fits use ∧ use.Spelled ∧ use.run noRules = some r ∧
      r.trie.trieTreeRoot ≠ .null ∧ trieChkRule_ r.trie subject action resource
        (-1) = none := by
  obtain ⟨w, c, rest, -, hTuple, hc⟩ := exists_first h
  have hEmpty : RuleTrie.Spelled [] := by simp [RuleTrie.Spelled]
  have hSpelled := spelled_joinFields.mpr ⟨spelled_word w, hEmpty, spelled_star⟩
  have hLength : (joinFields (w.map i2c) [] [42]).length < 256 := by
    have hWord := congrArg List.length hTuple
    simp only [joinFields, List.length_append, List.length_cons, List.length_nil] at hFits hWord ⊢
    omega
  obtain ⟨r, hRun, hPath⟩ := processUser_insert hLength hSpelled
  have hWord : joinFields (w.map i2c) [] [42] = (w ++ [11, 11, 10]).map i2c := by
    rw [List.map_append]
    simp only [joinFields, List.append_assoc]
    rfl
  rw [hWord] at hPath
  refine ⟨.user ⟨w.map i2c, [], some 49⟩, r, hLength, fun _ =>
    ⟨spelled_word w, hEmpty⟩, hRun,
    ?_, ?_⟩
  · obtain ⟨patternId, child, hNode⟩ := insertPath_newNode 0 (w ++ [11, 11, 10])
    rw [hNode] at hPath
    rw [← Option.some.inj hPath]
    simp
  · rw [trieChkRule_, match_tupe, hTuple]
    exact match_not_spelled 0 w _ (by simp) hc rest hPath _

theorem TrieUse.Fails.check {c : ConnectionInfo} (hFits : (TrieUse.check c).Fits)
    (h : ¬(TrieUse.check c).Spelled) : (TrieUse.check c).Fails := by
  obtain ⟨hType, hNot⟩ := not_or.mp h
  obtain ⟨hPage, hUser, hS, hR⟩ := hFits
  obtain ⟨hDecimal, hAction⟩ := decimal_pageType c.pType hPage
  have hUserLength : (orNotFound c.userId).length ≤ 51 := length_orNotFound (by omega) (by omega)
  have hLength : ∀ id : List UInt8, id.length ≤ 51 →
      (joinFields (orNotFound c.userId) (decimal c.pType) (orNotFound id)).length ≤ 252 := by
    intro id hId
    have := length_orNotFound (n := 51) (by omega) hId
    simp only [joinFields, List.length_append, List.length_cons, List.length_nil]
    omega
  by_cases hFirst : RuleTrie.Spelled
      (joinFields (orNotFound c.userId) (decimal c.pType) (orNotFound c.sId))
  · have hSecond : ¬RuleTrie.Spelled
        (joinFields (orNotFound c.userId) (decimal c.pType) (orNotFound c.rId)) := by
      intro hAll
      obtain ⟨hUser', -, hS'⟩ := spelled_joinFields.mp hFirst
      exact hNot ⟨spelled_orNotFound.mp hUser', spelled_orNotFound.mp hS',
        spelled_orNotFound.mp (spelled_joinFields.mp hAll).2.2⟩
    obtain ⟨use, r, hUse, hSpelled, hRun, hRoot, hNone⟩ :=
      trieChkRule_none (hLength c.rId (by omega)) hSecond
    apply TrieUse.Fails.of_one ⟨hUse, hSpelled⟩ hRun
    obtain ⟨a, hA⟩ := spelled_trieChkRule hRoot hFirst
    simp [TrieUse.run, trieChkRule, hType, hA, hNone]
  · obtain ⟨use, r, hUse, hSpelled, hRun, -, hNone⟩ :=
      trieChkRule_none (hLength c.sId (by omega)) hFirst
    apply TrieUse.Fails.of_one ⟨hUse, hSpelled⟩ hRun
    simp [TrieUse.run, trieChkRule, hType, hNone]

/-! ### Runs -/

theorem TrieUse.run_spelled (uses : List TrieUse) (h : ∀ u ∈ uses, u.Fits ∧ u.Spelled) :
    ∃ r, uses.foldlM TrieUse.run noRules = some r ∧ r.trie.trieTreeRoot ≠ .null := by
  apply foldlM_invariant TrieUse.run (fun _ r => r.trie.trieTreeRoot ≠ .null) uses
    (by simp [noRules, initTrieTree, newNode])
  intro done use rest hSplit r hRoot
  obtain ⟨hFits, hSpelled⟩ := h use (by simp [hSplit])
  exact hSpelled.run hFits hRoot

/-- Every run of messages and requests with digits, `*` and spaces only ends, and so does one more
message or request behind every such run exactly when it has digits, `*` and spaces only. -/
theorem indices_in_range_iff (use : TrieUse) (hFits : use.Fits) :
    (∀ uses : List TrieUse, (∀ u ∈ uses, u.Fits ∧ u.Spelled) →
      ∃ r, (uses ++ [use]).foldlM TrieUse.run noRules = some r) ↔ use.Spelled := by
  constructor
  · intro hRuns
    by_contra hNot
    have hFails : use.Fails := by
      cases use with
      | user f => exact TrieUse.Fails.user hFits hNot
      | resource f => exact TrieUse.Fails.resource hFits hNot
      | check c => exact TrieUse.Fails.check hFits hNot
    obtain ⟨uses, r, hUses, hRun, hNone⟩ := hFails
    obtain ⟨r', hRun'⟩ := hRuns uses hUses
    rw [List.foldlM_append, hRun] at hRun'
    simp [hNone] at hRun'
  · intro hSpelled uses hUses
    obtain ⟨r, hRun, -⟩ := TrieUse.run_spelled (uses ++ [use]) fun u hu => by
      rcases List.mem_append.mp hu with hu | hu
      · exact hUses u hu
      · rw [List.mem_singleton.mp hu]
        exact ⟨hFits, hSpelled⟩
    exact ⟨r, hRun⟩

/-- The request of the user 12 behind the rule `12 3 *`. -/
theorem indices_in_range_iff_request : ∃ r,
    ([TrieUse.user ⟨[49, 50], [51], some 49⟩] ++
      [TrieUse.check ⟨[49, 50], [53], 3, [54], [], []⟩]).foldlM TrieUse.run noRules = some r :=
  (indices_in_range_iff (.check ⟨[49, 50], [53], 3, [54], [], []⟩)
    ⟨by decide, by decide, by decide, by decide⟩).mpr
    (Or.inr ⟨⟨by simp, by decide⟩, ⟨by simp, by decide⟩, ⟨by simp, by decide⟩⟩)
    [.user ⟨[49, 50], [51], some 49⟩] (by
      intro u hu
      obtain rfl := List.mem_singleton.mp hu
      exact ⟨show (joinFields [49, 50] [51] [42]).length < 256 by decide,
        fun _ => ⟨by decide, by decide⟩⟩)

/-- A request without a user identifier behind the rule `12 3 *`. -/
theorem notFound_out_of_range :
    ¬∀ uses : List TrieUse, (∀ u ∈ uses, u.Fits) →
      ∃ r, uses.foldlM TrieUse.run noRules = some r := by
  intro h
  obtain ⟨r, hRun⟩ := h
    [.user ⟨[49, 50], [51], some 49⟩, .check ⟨[], [53], 3, [54], [], []⟩] (by
      intro u hu
      rcases List.mem_cons.mp hu with rfl | hu
      · show (joinFields [49, 50] [51] [42]).length < 256
        decide
      · obtain rfl := List.mem_singleton.mp hu
        exact ⟨by decide, by decide, by decide, by decide⟩)
  have hNone :
    ([TrieUse.user ⟨[49, 50], [51], some 49⟩, .check ⟨[], [53], 3, [54], [], []⟩].foldlM
      TrieUse.run noRules).isSome = false := by
    decide +kernel
  rw [hRun] at hNone
  cases hNone

end Shutter.Rules
