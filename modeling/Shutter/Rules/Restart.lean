import Shutter.Rules.Contents

/-! A restart of the program beside a program that goes on.  After a restart `load_all_config` reads
all rows and skips those that disable a rule, whereas `load_config` deletes the rule of such a row
when it reads it in a later batch. -/

namespace Shutter.Rules

open Shutter.Acsm Shutter.StringMatcher Shutter.RuleTrie Shutter.Library

/-- The waterlines are the same, and the stores hold the same rules. -/
structure SameRules (s s' : Loader) : Prop where
  waterline : s.waterline = s'.waterline
  rules : ∀ qe, some qe ∈ s.stores.table ↔ some qe ∈ s'.stores.table
  rulesN : ∀ qe, some qe ∈ s.stores.tableN ↔ some qe ∈ s'.stores.tableN
  trie : ∀ rule, s.stores.trie.Has rule ↔ s'.stores.trie.Has rule
  urls : ∀ url, url ∈ s.stores.automata.url.a.acsmPatterns ↔
    url ∈ s'.stores.automata.url.a.acsmPatterns
  keywords : ∀ keyword, keyword ∈ s.stores.down.m.acsmPatterns ↔
    keyword ∈ s'.stores.down.m.acsmPatterns

/-- The start of the program on all rows ends with the rules and waterlines of a start on the first
rows and a round for each batch. -/
def RestartAgrees (first : Database) (batches : List Database) : Prop :=
  ∃ s s', startUp (everything first batches) = some s ∧
    (startUp first).bind (rounds first batches) = some s' ∧ SameRules s s'

/-! ### The calls -/

/-- The calls of `init_loop`. -/
def initCalls : List LoaderCall :=
  [.addQueryRule
      (ascii ['L', 'i', ' ', '&', ' ', 'H', 'o', 'n', 'g', ' ', '#', ' ', 'Z', 'h', 'i']),
    .addQueryRule (ascii ['f', 'r', 'e', 'e']),
    .addQueryRule (ascii ['s', 'u', 'n', ' ', '#', ' ', 'p', 'e', 'i', 'y', 'u', 'a', 'n'])]

/-- The calls of a start on the first rows, and of a round for each batch. -/
def callsOf (first : Database) (batches : List Database) : List LoaderCall :=
  initCalls ++ loads first ++ batches.flatMap changes

/-- Each addition to a table comes when it has a slot, each deletion from a list finds a string
there, and nothing that is added is gone at the end: a rule is added behind the last deletion of its
text, and behind some point a string is added more often than it is deleted. -/
structure Survives (calls : List LoaderCall) : Prop where
  finds : ∀ done call rest, calls = done ++ call :: rest → call.Finds done
  rules : ∀ qe, .add qe ∈ calls.flatMap LoaderCall.rules →
    Kept QueryExpression.fullText (calls.flatMap LoaderCall.rules) qe
  rulesN : ∀ qe, .add qe ∈ calls.flatMap LoaderCall.rulesN →
    Kept QueryExpression.fullText (calls.flatMap LoaderCall.rulesN) qe
  trie : ∀ rule, .add rule ∈ calls.flatMap LoaderCall.trieRules →
    Kept id (calls.flatMap LoaderCall.trieRules) rule
  urls : ∀ url, .add url ∈ calls.flatMap LoaderCall.urls →
    Surplus (calls.flatMap LoaderCall.urls) url
  keywords : ∀ keyword, .add keyword ∈ calls.flatMap LoaderCall.keywords →
    Surplus (calls.flatMap LoaderCall.keywords) keyword

theorem initLoop_eq : initLoop = initCalls.foldlM LoaderCall.run noRules := by
  simp [initLoop, initCalls, LoaderCall.run]

theorem startUp_eq (db : Database) :
    startUp db = ((initCalls ++ loads db).foldlM LoaderCall.run noRules).map fun stores =>
      ⟨raised initDatabaseWaterline db, stores⟩ := by
  rw [startUp, initLoop_eq, List.foldlM_append]
  cases initCalls.foldlM LoaderCall.run noRules with
  | none => rfl
  | some r => exact loadAllConfig_eq db r

theorem rounds_startUp {first : Database} {batches : List Database}
    (h : Increasing (everything first batches)) :
    (startUp first).bind (rounds first batches) =
      ((callsOf first batches).foldlM LoaderCall.run noRules).map fun stores =>
        ⟨raised initDatabaseWaterline (everything first batches), stores⟩ := by
  rw [startUp_eq, callsOf]
  generalize initCalls ++ loads first = start
  rw [List.foldlM_append]
  cases start.foldlM LoaderCall.run noRules with
  | none => rfl
  | some r => exact rounds_eq h r

/-- The call adds to a store. -/
def LoaderCall.adds : LoaderCall → Bool
  | .addQueryRule _ | .addQueryRuleN _ | .addKey _ | .insertForUserid _ | .insertForResourceid _
  | .addurl _ => true
  | .delQueryRule _ | .delQueryRuleN _ | .delStr _ | .del _ | .delurl _ => false

theorem joinFields_terminated {subject action resource : List UInt8} (hSubject : 0 ∉ subject)
    (hAction : 0 ∉ action) (hResource : 0 ∉ resource) :
    0 ∉ joinFields subject action resource := by
  simp [joinFields, hSubject, hAction, hResource]

theorem userRule_terminated (row : ConfigRow) : 0 ∉ userRule row :=
  joinFields_terminated (row.terminated 2) (row.terminated 3) (by decide)

theorem resourceRule_terminated (row : ConfigRow) : 0 ∉ resourceRule row :=
  joinFields_terminated (by decide) (row.terminated 3) (row.terminated 2)

theorem ConfigRow.enabling_adds {row : ConfigRow} {table : Table} {call : LoaderCall}
    (h : call ∈ row.enabling table) : call.adds ∧ 0 ∉ call.string := by
  have hText := row.terminated 2
  cases table <;> simp only [ConfigRow.enabling] at h
  case contentMonitorConfig =>
    rcases List.mem_cons.mp h with rfl | hKey
    · exact ⟨rfl, hText⟩
    · split at hKey
      · cases hKey
      · obtain rfl := List.mem_singleton.mp hKey
        exact ⟨rfl, hText⟩
  case contentBlockConfig =>
    split at h
    all_goals
      obtain rfl := List.mem_singleton.mp h
      exact ⟨rfl, hText⟩
  case userBlockConfig =>
    obtain rfl := List.mem_singleton.mp h
    exact ⟨rfl, userRule_terminated row⟩
  case resourceBlockConfig =>
    obtain rfl := List.mem_singleton.mp h
    exact ⟨rfl, resourceRule_terminated row⟩
  case urlBlockConfig =>
    obtain rfl := List.mem_singleton.mp h
    exact ⟨rfl, hText⟩
  all_goals cases h

theorem ConfigRow.disabling_adds {row : ConfigRow} {table : Table} {call : LoaderCall}
    (h : call ∈ row.disabling table) : call.adds = false ∧ 0 ∉ call.string := by
  have hText := row.terminated 2
  cases table <;> simp only [ConfigRow.disabling] at h
  case contentBlockConfig =>
    rcases List.mem_pair.mp h with rfl | rfl
    · exact ⟨rfl, hText⟩
    · exact ⟨rfl, hText⟩
  case contentMonitorConfig | urlBlockConfig =>
    obtain rfl := List.mem_singleton.mp h
    exact ⟨rfl, hText⟩
  case userBlockConfig =>
    obtain rfl := List.mem_singleton.mp h
    exact ⟨rfl, userRule_terminated row⟩
  case resourceBlockConfig =>
    obtain rfl := List.mem_singleton.mp h
    exact ⟨rfl, resourceRule_terminated row⟩
  all_goals cases h

theorem ConfigRow.loads_eq (row : ConfigRow) (table : Table) :
    row.loads table = (row.changes table).filter LoaderCall.adds := by
  unfold ConfigRow.loads ConfigRow.changes
  cases row.concerns table with
  | false => rfl
  | true =>
    cases row.enables table with
    | false =>
      symm
      apply List.filter_eq_nil_iff.mpr
      intro call hCall
      simp [(ConfigRow.disabling_adds hCall).1]
    | true =>
      symm
      exact List.filter_eq_self.mpr fun call hCall => (ConfigRow.enabling_adds hCall).1

theorem loads_eq (db : Database) : loads db = (changes db).filter LoaderCall.adds := by
  have hRow : ∀ table, ConfigRow.loads table = fun row =>
      (row.changes table).filter LoaderCall.adds := fun table =>
    funext fun row => row.loads_eq table
  simp only [loads, changes, List.filter_flatMap, hRow]

theorem loads_append (db batch : Database) :
    (loads (db.append batch)).Perm (loads db ++ loads batch) := by
  simp only [loads, Database.append, List.flatMap_append]
  exact (List.flatMap_append_perm Table.all _ _).symm

theorem loads_everything (first : Database) (batches : List Database) :
    (loads (everything first batches)).Perm (loads first ++ batches.flatMap loads) := by
  induction batches generalizing first with
  | nil => simp [everything]
  | cons batch batches ih =>
    calc loads (everything (first.append batch) batches)
      _ |>.Perm (loads (first.append batch) ++ batches.flatMap loads) := ih (first.append batch)
      _ |>.Perm (loads first ++ loads batch ++ batches.flatMap loads) :=
        (loads_append first batch).append_right _
      _ = loads first ++ (batch :: batches).flatMap loads := by simp

/-- A start on all rows makes, in another order, the calls of the other program that add
something. -/
theorem restart_perm (first : Database) (batches : List Database) :
    (initCalls ++ loads (everything first batches)).Perm
      ((callsOf first batches).filter LoaderCall.adds) := by
  have hInit : initCalls.filter LoaderCall.adds = initCalls := rfl
  have hFirst : (loads first).filter LoaderCall.adds = loads first := by simp [loads_eq]
  have hBatches : (batches.flatMap changes).filter LoaderCall.adds = batches.flatMap loads := by
    rw [List.filter_flatMap]
    exact congrArg batches.flatMap (funext fun batch => (loads_eq batch).symm)
  rw [callsOf, List.filter_append, List.filter_append, hInit, hFirst, hBatches, List.append_assoc]
  exact (loads_everything first batches).append_left initCalls

theorem callsOf_terminated {first : Database} {batches : List Database} {call : LoaderCall}
    (h : call ∈ callsOf first batches) : 0 ∉ call.string := by
  have hChanges : ∀ {db : Database}, call ∈ changes db → 0 ∉ call.string := by
    intro db hCall
    simp only [changes, List.mem_flatMap] at hCall
    obtain ⟨table, -, row, -, hCall⟩ := hCall
    unfold ConfigRow.changes at hCall
    split at hCall
    · split at hCall
      · exact (ConfigRow.enabling_adds hCall).2
      · exact (ConfigRow.disabling_adds hCall).2
    · cases hCall
  simp only [callsOf, List.mem_append, List.mem_flatMap] at h
  rcases h with (hInit | hFirst) | ⟨batch, -, hBatch⟩
  · simp only [initCalls, List.mem_cons, List.not_mem_nil, or_false] at hInit
    rcases hInit with rfl | rfl | rfl <;> decide
  · rw [loads_eq] at hFirst
    exact hChanges (List.mem_of_mem_filter hFirst)
  · exact hChanges hBatch

/-! ### Both programs -/

/-- The operations of a call that adds are additions, and those of another are removals. -/
def Separated {α κ : Type} (ops : LoaderCall → List (Op α κ)) : Prop :=
  ∀ call, (∀ k, .remove k ∈ ops call → call.adds = false) ∧
    ∀ a, .add a ∈ ops call → call.adds

theorem separated_rules : Separated LoaderCall.rules := by
  intro call
  cases call <;> simp [LoaderCall.rules, LoaderCall.adds]

theorem separated_rulesN : Separated LoaderCall.rulesN := by
  intro call
  cases call <;> simp [LoaderCall.rulesN, LoaderCall.adds]

theorem separated_trieRules : Separated LoaderCall.trieRules := by
  intro call
  cases call <;> simp [LoaderCall.trieRules, LoaderCall.adds]

theorem separated_urls : Separated LoaderCall.urls := by
  intro call
  cases call <;> simp [LoaderCall.urls, LoaderCall.adds]

theorem separated_keywords : Separated LoaderCall.keywords := by
  intro call
  cases call <;> simp [LoaderCall.keywords, LoaderCall.adds]

section Restart

variable {α κ : Type} {ops : LoaderCall → List (Op α κ)} {calls restart : List LoaderCall}

theorem mem_restart (hRestart : restart.Perm (calls.filter LoaderCall.adds)) {call : LoaderCall} :
    call ∈ restart ↔ call ∈ calls ∧ call.adds := by
  rw [hRestart.mem_iff, List.mem_filter]

theorem add_mem_restart (hOps : Separated ops)
    (hRestart : restart.Perm (calls.filter LoaderCall.adds)) (a : α) :
    .add a ∈ restart.flatMap ops ↔ .add a ∈ calls.flatMap ops := by
  simp only [List.mem_flatMap, mem_restart hRestart]
  constructor
  · rintro ⟨call, ⟨hCall, -⟩, hAdd⟩
    exact ⟨call, hCall, hAdd⟩
  · rintro ⟨call, hCall, hAdd⟩
    exact ⟨call, ⟨hCall, (hOps call).2 a hAdd⟩, hAdd⟩

theorem remove_not_mem_restart (hOps : Separated ops)
    (hRestart : restart.Perm (calls.filter LoaderCall.adds)) (k : κ) :
    .remove k ∉ restart.flatMap ops := by
  intro h
  obtain ⟨call, hCall, hRemove⟩ := List.mem_flatMap.mp h
  have hAdds := ((mem_restart hRestart).mp hCall).2
  rw [(hOps call).1 k hRemove] at hAdds
  cases hAdds

theorem countP_restart (hRestart : restart.Perm (calls.filter LoaderCall.adds))
    {p : LoaderCall → Bool} (hp : ∀ call, p call → call.adds) :
    restart.countP p = calls.countP p := by
  rw [hRestart.countP_eq, List.countP_filter]
  congr 1
  funext call
  cases hCall : p call with
  | false => rfl
  | true => simp [hp call hCall]

/-- The calls of the restart find slots when those of the other program do: there are as many
additions to a table. -/
theorem finds_restart (hRestart : restart.Perm (calls.filter LoaderCall.adds))
    (hFinds : ∀ done call rest, calls = done ++ call :: rest → call.Finds done) :
    ∀ done call rest, restart = done ++ call :: rest → call.Finds done := by
  have hRules : restart.countP LoaderCall.addsRule ≤ 10000 := by
    rw [countP_restart hRestart fun call => by
      cases call <;> simp [LoaderCall.addsRule, LoaderCall.adds]]
    apply countP_lt_iff.mp
    intro done call rest hSplit hCall
    have hFound := hFinds done call rest hSplit
    cases call <;> first | exact hFound | cases hCall
  have hRulesN : restart.countP LoaderCall.addsRuleN ≤ 10000 := by
    rw [countP_restart hRestart fun call => by
      cases call <;> simp [LoaderCall.addsRuleN, LoaderCall.adds]]
    apply countP_lt_iff.mp
    intro done call rest hSplit hCall
    have hFound := hFinds done call rest hSplit
    cases call <;> first | exact hFound | cases hCall
  intro done call rest hSplit
  have hCall : call ∈ restart := by simp [hSplit]
  have hAdds := ((mem_restart hRestart).mp hCall).2
  cases call with
  | addQueryRule query => exact countP_lt_iff.mpr hRules done _ rest hSplit rfl
  | addQueryRuleN query => exact countP_lt_iff.mpr hRulesN done _ rest hSplit rfl
  | addKey | insertForUserid | insertForResourceid | addurl => trivial
  | delQueryRule | delQueryRuleN | delStr | del | delurl => cases hAdds

/-- Two collections are the same exactly when what has been added is what is left. -/
theorem same_iff_left {has has' left : α → Prop} {added : α → Prop}
    (h : ∀ a, has a ↔ added a) (h' : ∀ a, has' a ↔ left a)
    (hLeft : ∀ a, left a → added a) :
    (∀ a, has a ↔ has' a) ↔ ∀ a, added a → left a := by
  constructor
  · intro hSame a hAdded
    exact (h' a).mp ((hSame a).mp ((h a).mpr hAdded))
  · intro hKeeps a
    rw [h, h']
    exact ⟨hKeeps a, hLeft a⟩

variable {r r' : Stores} {waterline : DatabaseWaterline}

/-- The stores that a restart builds, beside those that the calls build. -/
theorem sameRules_iff (hRestart : restart.Perm (calls.filter LoaderCall.adds))
    (h : Built restart r) (h' : Built calls r')
    (hFinds : ∀ done call rest, calls = done ++ call :: rest → call.Finds done) :
    SameRules ⟨waterline, r⟩ ⟨waterline, r'⟩ ↔ Survives calls := by
  have hRules := same_iff_left (fun qe => (h.table qe).trans
    ((kept_of_adds (remove_not_mem_restart separated_rules hRestart)).trans
      (add_mem_restart separated_rules hRestart qe))) h'.table fun qe => Kept.mem
  have hRulesN := same_iff_left (fun qe => (h.tableN qe).trans
    ((kept_of_adds (remove_not_mem_restart separated_rulesN hRestart)).trans
      (add_mem_restart separated_rulesN hRestart qe))) h'.tableN fun qe => Kept.mem
  have hTrie := same_iff_left (fun rule => (h.trie.has rule).trans
    ((kept_of_adds (remove_not_mem_restart separated_trieRules hRestart)).trans
      (add_mem_restart separated_trieRules hRestart rule))) h'.trie.has fun rule => Kept.mem
  have hUrl : ∀ url, url ∈ r.automata.url.a.acsmPatterns ↔
      .add url ∈ calls.flatMap LoaderCall.urls := by
    intro url
    rw [h.urls.active, mem_bag_of_adds (remove_not_mem_restart separated_urls hRestart),
      add_mem_restart separated_urls hRestart]
  have hUrl' : ∀ url, url ∈ r'.automata.url.a.acsmPatterns ↔
      Surplus (calls.flatMap LoaderCall.urls) url := by
    intro url
    rw [h'.urls.active, mem_bag]
  have hKeyword : ∀ keyword, keyword ∈ r.down.m.acsmPatterns ↔
      .add keyword ∈ calls.flatMap LoaderCall.keywords := by
    intro keyword
    rw [h.keywords.active, mem_bag_of_adds (remove_not_mem_restart separated_keywords hRestart),
      add_mem_restart separated_keywords hRestart]
  have hKeyword' : ∀ keyword, keyword ∈ r'.down.m.acsmPatterns ↔
      Surplus (calls.flatMap LoaderCall.keywords) keyword := by
    intro keyword
    rw [h'.keywords.active, mem_bag]
  have hUrls := same_iff_left hUrl hUrl' fun url => Surplus.mem
  have hKeywords := same_iff_left hKeyword hKeyword' fun keyword => Surplus.mem
  constructor
  · rintro ⟨-, hr, hrN, ht, hu, hk⟩
    exact ⟨hFinds, hRules.mp hr, hRulesN.mp hrN, hTrie.mp ht, hUrls.mp hu, hKeywords.mp hk⟩
  · rintro ⟨-, hr, hrN, ht, hu, hk⟩
    exact ⟨rfl, hRules.mpr hr, hRulesN.mpr hrN, hTrie.mpr ht, hUrls.mpr hu, hKeywords.mpr hk⟩

end Restart

section Agreement

variable {first : Database} {batches : List Database}

/-- The insertions into the trie of a restart, and those of the other program, find room there. -/
structure BothFit (first : Database) (batches : List Database) : Prop where
  restart : InsertsFit (initCalls ++ loads (everything first batches))
  rounds : InsertsFit (callsOf first batches)

theorem restart_built (hReadable : ∀ call ∈ callsOf first batches, call.Readable)
    (hFit : BothFit first batches) :
    (∀ s, startUp (everything first batches) = some s →
      s.waterline = raised initDatabaseWaterline (everything first batches) ∧
        Built (initCalls ++ loads (everything first batches)) s.stores) ∧
    ((∃ s, startUp (everything first batches) = some s) ↔ ∀ done call rest,
      initCalls ++ loads (everything first batches) = done ++ call :: rest →
        call.Finds done) := by
  obtain ⟨hBuilt, hEnds⟩ := foldlM_built (fun call hCall => by
    have hMem := ((mem_restart (restart_perm first batches)).mp hCall).1
    exact ⟨callsOf_terminated hMem, hReadable call hMem⟩) hFit.restart
  rw [startUp_eq]
  constructor
  · intro s hStart
    obtain ⟨r, hRun, rfl⟩ := Option.map_eq_some_iff.mp hStart
    exact ⟨rfl, hBuilt r hRun⟩
  · rw [← hEnds]
    constructor
    · rintro ⟨s, hStart⟩
      obtain ⟨r, hRun, -⟩ := Option.map_eq_some_iff.mp hStart
      exact ⟨r, hRun⟩
    · rintro ⟨r, hRun⟩
      exact ⟨_, by rw [hRun]; rfl⟩

theorem rounds_built (hIds : Increasing (everything first batches))
    (hReadable : ∀ call ∈ callsOf first batches, call.Readable) (hFit : BothFit first batches) :
    (∀ s, (startUp first).bind (rounds first batches) = some s →
      s.waterline = raised initDatabaseWaterline (everything first batches) ∧
        Built (callsOf first batches) s.stores) ∧
    ((∃ s, (startUp first).bind (rounds first batches) = some s) ↔
      ∀ done call rest, callsOf first batches = done ++ call :: rest → call.Finds done) := by
  obtain ⟨hBuilt, hEnds⟩ := foldlM_built
    (fun call hCall => ⟨callsOf_terminated hCall, hReadable call hCall⟩) hFit.rounds
  rw [rounds_startUp hIds]
  constructor
  · intro s hRounds
    obtain ⟨r, hRun, rfl⟩ := Option.map_eq_some_iff.mp hRounds
    exact ⟨rfl, hBuilt r hRun⟩
  · rw [← hEnds]
    constructor
    · rintro ⟨s, hRounds⟩
      obtain ⟨r, hRun, -⟩ := Option.map_eq_some_iff.mp hRounds
      exact ⟨r, hRun⟩
    · rintro ⟨r, hRun⟩
      exact ⟨_, by rw [hRun]; rfl⟩

end Agreement

/-- A row of `user_block_config` for the user 1 and the action 1. -/
def userRow (id : Nat) (state : Bool) : ConfigRow where
  id
  column i := if i = 10 ∧ state = false then [48] else [49]
  terminated i := by split <;> decide

/-- A database with these rows in `user_block_config`, and no others. -/
def userRows (rows : List ConfigRow) : Database
  | .userBlockConfig => rows
  | _ => []

/-- The rule of these rows. -/
def userText : List UInt8 := [49, 32, 49, 32, 42]

theorem initCalls_readable {call : LoaderCall} (h : call ∈ initCalls) : call.Readable := by
  rcases List.mem_cons.mp h with rfl | h
  · show (parseQuery _).isSome
    decide
  rcases List.mem_pair.mp h with rfl | rfl
  · show (parseQuery _).isSome
    decide
  · show (parseQuery _).isSome
    decide

theorem insertsFit_userText (calls : List LoaderCall) (hUser : ∀ call ∈ calls,
      call = .insertForUserid userText ∨ call = .del userText)
        (hLength : calls.length ≤ 32767) :
    (∀ call ∈ initCalls ++ calls, call.Readable) ∧ InsertsFit (initCalls ++ calls) := by
  constructor
  · have hText : userText.length < 256 ∧ Spelled userText := by decide
    intro call hCall
    rcases List.mem_append.mp hCall with hInit | hCall
    · exact initCalls_readable hInit
    · rcases hUser call hCall with rfl | rfl
      · exact hText
      · exact hText
  · apply insertsFit_of_few
    rw [List.countP_append]
    have hInit : initCalls.countP LoaderCall.inserts = 0 := rfl
    have hCalls := calls.countP_le_length (p := LoaderCall.inserts)
    omega

end Shutter.Rules
