import Shutter.Rules.Decision

/-! Rules in monitor mode and the decisions to block.  The rules of the up stream go to stores of
their own, which `get_decision` reads for the log only.  The rules of the down stream join the
keywords of `M`, which `keyword_match` blocks by. -/

namespace Shutter.Rules

open Shutter.Acsm Shutter.StringMatcher Shutter.Library Shutter.Acch

/-- A message for a rule in monitor mode. -/
def isMonitor (rule : List UInt8) : Bool :=
  rule.head? == some 49 && (contentFields rule).any (·.workmode == some 49)

/-- The message enables no rule of the down stream, and the rule that it enables has one to three
words, which `match_N` can evaluate. -/
def Harmless (rule : List UInt8) : Prop :=
  ∀ f, contentFields rule = some f → f.state = some 49 → f.upOrDown ≠ some 50 ∧
    ∀ qe, parseQuery f.rule1 = some qe → 1 ≤ qe.query.length ∧ qe.query.length ≤ 3

/-- The same stores with other monitoring rules. -/
def Stores.withMonitor (r : Stores) (kwN : Buffers) (tableN : QueryTable) : Stores :=
  { r with automata := { r.automata with kwN }, tableN }

/-- The number of the monitoring rules that match the text. -/
def Stores.monitored (r : Stores) (text : List UInt8) : Nat :=
  r.tableN.countP fun e => e.any fun qe => matchN r.automata qe text = some true

/-- The monitoring rules can be evaluated. -/
structure Stores.Ready (r : Stores) : Prop where
  words : ∀ qe, some qe ∈ r.tableN → qe.Cut ∧ 1 ≤ qe.query.length ∧
    qe.query.length ≤ 3
  searches : ∀ qe, some qe ∈ r.tableN → ∃ ps, r.automata.kwN.a.Searches ps

/-! ### The steps -/

section Steps

variable {r r' : Stores} {rule : List UInt8} {kwN : Buffers} {tableN : QueryTable}

theorem addQueryRule_withMonitor (query : List UInt8) :
    addQueryRule (r.withMonitor kwN tableN) query =
      (addQueryRule r query).map (·.withMonitor kwN tableN) := by
  cases hQuery : parseQuery query with
  | none =>
    rw [addQueryRule_unparsed _ hQuery, addQueryRule_unparsed _ hQuery]
    rfl
  | some qe =>
    have hTable : (r.withMonitor kwN tableN).table.length = r.table.length := rfl
    rw [addQueryRule_parsed _ hQuery, addQueryRule_parsed _ hQuery, hTable]
    split
    · simp only [Stores.withMonitor]
      cases qe.query.foldlM Buffers.add r.automata.kw <;> rfl
    · rfl

theorem onTrie_withMonitor (call : RuleTrie.Trie → Option RuleTrie.Trie) :
    (r.withMonitor kwN tableN).onTrie call = (r.onTrie call).map (·.withMonitor kwN tableN) := by
  simp only [Stores.onTrie, Stores.withMonitor]
  cases call r.trie <;> rfl

theorem onDown_withMonitor (call : Down → Option Down) :
    (r.withMonitor kwN tableN).onDown call = (r.onDown call).map (·.withMonitor kwN tableN) := by
  simp only [Stores.onDown, Stores.withMonitor]
  cases call r.down <;> rfl

theorem processTrie_withMonitor (state : Option UInt8)
    (insert : RuleTrie.Trie → List UInt8 → Option RuleTrie.Trie) (text : List UInt8) :
    processTrie (r.withMonitor kwN tableN) state insert text =
      (processTrie r state insert text).map (·.withMonitor kwN tableN) := by
  unfold processTrie
  cases fit256 text with
  | none => rfl
  | some text =>
    simp only [Option.bind_eq_bind, Option.bind_some, onTrie_withMonitor]
    split
    · rfl
    · split <;> rfl

theorem processUrl_withMonitor (f : UrlFields) : processUrl (r.withMonitor kwN tableN) f =
    (processUrl r f).map (·.withMonitor kwN tableN) := by
  simp only [processUrl, Stores.onAutomata, Stores.withMonitor, addurl, delurl]
  split
  · cases r.automata.url.add f.rule1 <;> rfl
  · split
    · cases r.automata.url.del f.rule1 <;> rfl
    · rfl

theorem processContent_withMonitor {f : ContentFields} (hMode : f.workmode ≠ some 49) :
    processContent (r.withMonitor kwN tableN) f =
      (processContent r f).map (·.withMonitor kwN tableN) := by
  have hDel : delQueryRule (r.withMonitor kwN tableN) f.rule1 =
      (delQueryRule r f.rule1).withMonitor kwN tableN := rfl
  simp only [processContent, if_neg hMode, hDel, addQueryRule_withMonitor, onDown_withMonitor]
  repeat' split
  all_goals rfl

/-- A message that is not for a monitoring rule does the same under other monitoring rules. -/
theorem ruleProcess_withMonitor (hMode : isMonitor rule = false) :
    ruleProcess (r.withMonitor kwN tableN) rule =
      (ruleProcess r rule).map (·.withMonitor kwN tableN) := by
  unfold ruleProcess
  by_cases h₁ : rule.head? = some 49
  · rw [if_pos h₁, if_pos h₁]
    cases hFields : contentFields rule with
    | none => rfl
    | some f =>
      have hMode : f.workmode ≠ some 49 := by simpa [isMonitor, h₁, hFields] using hMode
      exact processContent_withMonitor hMode
  · rw [if_neg h₁, if_neg h₁]
    simp only [processUser, processResource, processTrie_withMonitor, processUrl_withMonitor]
    split
    · cases idFields rule <;> rfl
    · split
      · cases idFields rule <;> rfl
      · split
        · cases urlFields rule <;> rfl
        · rfl

/-- What a message for a monitoring rule does, when it enables no rule of the down stream. -/
theorem ruleProcess_monitor (hMode : isMonitor rule = true) (hHarmless : Harmless rule)
    (hRun : ruleProcess r rule = some r') :
    (∃ query qe, addQueryRuleN r query = some r' ∧ parseQuery query = some qe ∧
      1 ≤ qe.query.length ∧ qe.query.length ≤ 3) ∨
    (∃ query, r' = delQueryRuleN r query) ∨ r' = r := by
  obtain ⟨h₁, hAny⟩ := Bool.and_eq_true_iff.mp hMode
  have h₁ : rule.head? = some 49 := by simpa using h₁
  rw [ruleProcess, if_pos h₁] at hRun
  obtain ⟨f, hFields, hContent⟩ := Option.bind_eq_some_iff.mp hRun
  have hWork : f.workmode = some 49 := by simpa [hFields] using hAny
  rw [processContent, if_neg (by rw [hWork]; decide), if_pos hWork] at hContent
  by_cases hState : f.state = some 49
  · obtain ⟨hDown, hWords⟩ := hHarmless f hFields hState
    rw [if_pos hState] at hContent
    obtain ⟨r₁, hAdd, hRest⟩ := Option.bind_eq_some_iff.mp hContent
    rw [if_neg hDown] at hRest
    obtain rfl := Option.some.inj hRest
    cases hQuery : parseQuery f.rule1 with
    | none => simp [addQueryRuleN_unparsed r hQuery] at hAdd
    | some qe => exact Or.inl ⟨f.rule1, qe, hAdd, hQuery, hWords qe hQuery⟩
  · rw [if_neg hState] at hContent
    split at hContent
    · exact Or.inr (Or.inl ⟨f.rule1, (Option.some.inj hContent).symm⟩)
    · exact Or.inr (Or.inr (Option.some.inj hContent).symm)

theorem monitor_withMonitor (hMode : isMonitor rule = true) (hHarmless : Harmless rule)
    (hRun : ruleProcess r rule = some r') : ∃ kwN tableN, r' = r.withMonitor kwN tableN := by
  obtain ⟨query, qe, hAdd, hQuery, -⟩ | ⟨query, hDel⟩ | hSame :=
    ruleProcess_monitor hMode hHarmless hRun
  · obtain ⟨kwN, -, hRes⟩ := addQueryRuleN_eq hQuery hAdd
    exact ⟨kwN, _, hRes⟩
  · exact ⟨r.automata.kwN, r.tableN.del query, hDel⟩
  · exact ⟨r.automata.kwN, r.tableN, hSame⟩

/-- The messages keep the monitoring rules such that they can be evaluated. -/
theorem Stores.Ready.step (h : r.Ready) (hHarmless : isMonitor rule = true → Harmless rule)
    (hRun : ruleProcess r rule = some r') : r'.Ready := by
  cases hMode : isMonitor rule with
  | false =>
    have hSame : ruleProcess (r.withMonitor r.automata.kwN r.tableN) rule = some r' := hRun
    rw [ruleProcess_withMonitor hMode, hRun] at hSame
    obtain hSame := Option.some.inj hSame
    rw [← hSame]
    exact ⟨h.words, h.searches⟩
  | true =>
    obtain ⟨query, qe, hAdd, hQuery, hWords⟩ | ⟨query, hDel⟩ | hSame :=
      ruleProcess_monitor hMode (hHarmless hMode) hRun
    · obtain ⟨kwN, hKwN, rfl⟩ := addQueryRuleN_eq hQuery hAdd
      have hNonempty : qe.query ≠ [] := List.length_pos_iff.mp hWords.1
      refine ⟨fun qe' hqe' => ?_, fun _ _ => foldlM_add_searches hKwN (Or.inl hNonempty)⟩
      rcases List.mem_append.mp hqe' with hqe' | hqe'
      · exact h.words qe' hqe'
      · obtain rfl : qe' = qe := by simpa using hqe'
        exact ⟨parseQuery_cut hQuery, hWords⟩
    · rw [hDel]
      exact ⟨fun qe hqe => h.words qe (QueryTable.mem_del.mp hqe).1,
        fun qe hqe => h.searches qe (QueryTable.mem_del.mp hqe).1⟩
    · rwa [hSame]

end Steps

/-! ### Runs -/

section Runs

variable {r r' : Stores} {rules : List (List UInt8)}

theorem foldlM_withMonitor (hMode : ∀ rule ∈ rules, isMonitor rule = false) (kwN : Buffers)
    (tableN : QueryTable) : rules.foldlM ruleProcess (r.withMonitor kwN tableN) =
      (rules.foldlM ruleProcess r).map (·.withMonitor kwN tableN) := by
  induction rules generalizing r with
  | nil => rfl
  | cons rule rules ih =>
    rw [List.foldlM_cons, List.foldlM_cons, ruleProcess_withMonitor (hMode rule List.mem_cons_self)]
    cases ruleProcess r rule with
    | none => rfl
    | some r₁ => exact ih fun rule hRule => hMode rule (List.mem_cons_of_mem _ hRule)

/-- A run leaves what the run without the monitoring rules leaves, up to the monitoring rules. -/
theorem run_without_monitor
    (hHarmless : ∀ rule ∈ rules, isMonitor rule = true → Harmless rule)
    (hRun : rules.foldlM ruleProcess r = some r') :
    ∃ s kwN tableN, (rules.filter (!isMonitor ·)).foldlM ruleProcess r = some s ∧
      r' = s.withMonitor kwN tableN := by
  induction rules generalizing r with
  | nil =>
    obtain rfl : r = r' := by simpa using hRun
    exact ⟨r, r.automata.kwN, r.tableN, rfl, rfl⟩
  | cons rule rules ih =>
    rw [List.foldlM_cons] at hRun
    obtain ⟨r₁, hStep, hRest⟩ := Option.bind_eq_some_iff.mp hRun
    obtain ⟨s, kwN, tableN, hRun', hSame⟩ :=
      ih (fun rule hRule => hHarmless rule (List.mem_cons_of_mem _ hRule)) hRest
    cases hMode : isMonitor rule with
    | false =>
      refine ⟨s, kwN, tableN, ?_, hSame⟩
      rw [List.filter_cons_of_pos (by simp [hMode]), List.foldlM_cons, hStep]
      exact hRun'
    | true =>
      obtain ⟨kwN₁, tableN₁, rfl⟩ :=
        monitor_withMonitor hMode (hHarmless rule List.mem_cons_self hMode) hStep
      rw [foldlM_withMonitor fun rule hRule => by simpa using (List.mem_filter.mp hRule).2] at hRun'
      obtain ⟨s₀, hRun₀, rfl⟩ := Option.map_eq_some_iff.mp hRun'
      refine ⟨s₀, kwN, tableN, ?_, hSame⟩
      rwa [List.filter_cons_of_neg (by simp [hMode])]

theorem Stores.Ready.run (h : r.Ready)
    (hHarmless : ∀ rule ∈ rules, isMonitor rule = true → Harmless rule)
    (hRun : rules.foldlM ruleProcess r = some r') : r'.Ready := by
  induction rules generalizing r with
  | nil =>
    obtain rfl : r = r' := by simpa using hRun
    exact h
  | cons rule rules ih =>
    rw [List.foldlM_cons] at hRun
    obtain ⟨r₁, hStep, hRest⟩ := Option.bind_eq_some_iff.mp hRun
    exact ih (h.step (hHarmless rule List.mem_cons_self) hStep)
      (fun rule hRule => hHarmless rule (List.mem_cons_of_mem _ hRule)) hRest

theorem Stores.Ready.matchN (h : r.Ready) {qe : QueryExpression} (hqe : some qe ∈ r.tableN)
    (text : List UInt8) : ∃ hit, Rules.matchN r.automata qe text = some hit := by
  obtain ⟨ps, hSearches⟩ := h.searches qe hqe
  obtain ⟨hCut, hWords⟩ := h.words qe hqe
  obtain ⟨kws, hKws, -⟩ := acsmSearchKw_spec hSearches (cstr text)
  have hFound := acsmSearch_of_kw hKws
  obtain ⟨hit, hHit⟩ := hCut.evaluate hWords (kws.take kws.length)
  refine ⟨hit, ?_⟩
  rw [Rules.matchN, QueryExpression.matches, kwMatchN, getKeywordsN, hKws, hFound]
  exact hHit

/-- Monitoring rules that can be evaluated give a list of slots for each text, unless too many of
them match. -/
theorem Stores.Ready.logicQueryMatchN (h : r.Ready) {text : List UInt8}
    (hRoom : r.monitored text ≤ 32) : ∃ slots, logicQueryMatchN r text = some slots := by
  obtain ⟨slots, hHits⟩ := QueryTable.hits_total (fun qe hqe => h.matchN hqe text) 0
  refine ⟨slots, ?_⟩
  rw [Rules.logicQueryMatchN, hHits, Option.bind_some, hitRuleList,
    if_pos ((QueryTable.length_hits hHits).trans_le hRoom)]

theorem decision_without_monitor (url lr lrN trie : Nat) (block : Option Int) :
    (if url = 0 ∧ lr = 0 ∧ lrN = 0 ∧ trie = 0 then some 0
      else if 0 < lrN ∧ url = 0 ∧ lr = 0 ∧ trie = 0 then some 0 else block) =
      if url = 0 ∧ lr = 0 ∧ trie = 0 then some 0 else block := by
  by_cases hNone : url = 0 ∧ lr = 0 ∧ trie = 0
  · obtain ⟨rfl, rfl, rfl⟩ := hNone
    rcases Nat.eq_zero_or_pos lrN with rfl | hPos
    · rfl
    · simp [hPos]
  · rw [if_neg hNone, if_neg fun h => hNone ⟨h.1, h.2.1, h.2.2.2⟩, if_neg fun h => hNone h.2]

/-- The decision does not depend on which monitoring rules the text matches. -/
theorem getDecision_withMonitor {kwN kwN' : Buffers} {tableN tableN' : QueryTable}
    (h : (r.withMonitor kwN tableN).Ready) (h' : (r.withMonitor kwN' tableN').Ready)
    (c : Option ConnectionInfo)
    (hRoom : ∀ info ∈ c, (r.withMonitor kwN tableN).monitored info.comment ≤ 32 ∧
      (r.withMonitor kwN' tableN').monitored info.comment ≤ 32) :
    getDecision (r.withMonitor kwN tableN) c = getDecision (r.withMonitor kwN' tableN') c := by
  cases c with
  | none => rfl
  | some c =>
    obtain ⟨hFits, hFits'⟩ := hRoom c rfl
    obtain ⟨slots, hSlots⟩ := h.logicQueryMatchN hFits
    obtain ⟨slots', hSlots'⟩ := h'.logicQueryMatchN hFits'
    simp only [getDecision, hSlots, hSlots', Option.bind_eq_bind, Option.bind_some,
      decision_without_monitor]
    rfl

end Runs

theorem initLoop_ready :
    ∃ r, initLoop = some r ∧ r.Ready ∧ r.down = downAc ∧ r.tableN = [] := by
  obtain ⟨r, hRun, hDown, hTable, -⟩ := initLoop_spec
  exact ⟨r, hRun, ⟨by simp [hTable], by simp [hTable]⟩, hDown, hTable⟩

theorem Stores.monitored_le (r : Stores) (text : List UInt8) :
    r.monitored text ≤ r.tableN.length :=
  List.countP_le_length

end Shutter.Rules
