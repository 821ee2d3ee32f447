import Shutter.Rules.Boolean

/-! Runs of `add_query_rule` and `del_query_rule`.  All rules share one automaton, from which no
word is ever removed, but what a rule reads of it is whether its own words occur in the text, so the
rules do not see each other. -/

namespace Shutter.Rules

open Shutter.Acsm Shutter.StringMatcher Shutter.Library

/-- A call that changes a query table. -/
inductive Call where
  | addQueryRule (query : List UInt8)
  | addQueryRuleN (query : List UInt8)
  | delQueryRule (query : List UInt8)
  | delQueryRuleN (query : List UInt8)

/-- The query of a call. -/
def Call.query : Call → List UInt8
  | .addQueryRule query => query
  | .addQueryRuleN query => query
  | .delQueryRule query => query
  | .delQueryRuleN query => query

/-- One call. -/
def Call.run (r : Stores) : Call → Option Stores
  | .addQueryRule query => Rules.addQueryRule r query
  | .addQueryRuleN query => Rules.addQueryRuleN r query
  | .delQueryRule query => some (Rules.delQueryRule r query)
  | .delQueryRuleN query => some (Rules.delQueryRuleN r query)

theorem Stores.Sound.call {r r' : Stores} (h : r.Sound) {call : Call} (hQuery : 0 ∉ call.query)
    (hRun : call.run r = some r') : r'.Sound := by
  cases call with
  | addQueryRule query => exact h.addQueryRule hQuery hRun
  | addQueryRuleN query => exact h.addQueryRuleN hQuery hRun
  | delQueryRule query =>
    obtain rfl := Option.some.inj hRun
    exact ⟨h.words.del query, h.wordsN, h.url, h.trie, h.down⟩
  | delQueryRuleN query =>
    obtain rfl := Option.some.inj hRun
    exact ⟨h.words, h.wordsN.del query, h.url, h.trie, h.down⟩

theorem Stores.Sound.calls {calls : List Call} {r r' : Stores} (h : r.Sound)
    (hCalls : ∀ call ∈ calls, 0 ∉ call.query) (hRun : calls.foldlM Call.run r = some r') :
    r'.Sound := by
  induction calls generalizing r with
  | nil =>
    obtain rfl : r = r' := by simpa using hRun
    exact h
  | cons call calls ih =>
    rw [List.foldlM_cons] at hRun
    obtain ⟨r₁, hStep, hRest⟩ := Option.bind_eq_some_iff.mp hRun
    exact ih (h.call (hCalls call List.mem_cons_self) hStep)
      (fun call hCall => hCalls call (List.mem_cons_of_mem _ hCall)) hRest

/-! ### Evaluation -/

section Evaluation

variable {m : Buffers} {table : QueryTable} {qe : QueryExpression} {query : List UInt8}

/-- The rule evaluates to the branch for its operators and the words that occur in the text. -/
theorem Words.matches_eq (h : Words m table) (hqe : some qe ∈ table) (hNil : qe.query ≠ [])
    (hBlank : [] ∉ qe.query) (text : List UInt8) :
    qe.matches (acsmSearch m.a text) (acsmSearchKw m.a text) =
      evaluate qe.logicOps (qe.query.map fun w => decide (w <:+: text)) := by
  obtain ⟨w₀, hw₀⟩ := List.exists_mem_of_ne_nil _ hNil
  obtain ⟨kws, hKws, hMem⟩ := acsmSearchKw_spec (h qe hqe w₀ hw₀).1.searches text
  have hTf : populateTf qe kws = qe.query.map fun w => decide (w <:+: text) := by
    refine List.map_congr_left fun w hw => decide_eq_decide.mpr ?_
    rw [hMem w fun heq => hBlank (heq ▸ hw)]
    exact and_iff_right (h qe hqe w hw).2
  simp only [QueryExpression.matches, hKws, acsmSearch_of_kw hKws, Option.bind_eq_bind,
    Option.bind_some, List.take_length, hTf]

/-- The value of a query with non-blank operands is whether the text satisfies it. -/
theorem valueFrom_satisfies (query text : List UInt8) :
    valueFrom true (query.filter isLogic)
        (((operands query).map trim).map fun w => decide (w <:+: text)) =
      decide (Satisfies text query) := by
  rw [List.map_map, valueFrom_eq query ((fun w => decide (w <:+: text)) ∘ trim) true]
  obtain ⟨group, rest, hGroups⟩ : ∃ group rest, groups query = group :: rest :=
    List.exists_cons_of_ne_nil fun hNil => List.splitOnP_ne_nil (· == 35) query
      (List.map_eq_nil_iff.mp hNil)
  simp only [Satisfies, hGroups]
  rw [Bool.eq_iff_iff]
  simp

theorem Words.matches_satisfies (h : Words m table) (hqe : some qe ∈ table)
    (hFilled : ∀ operand ∈ operands query, NonBlank operand)
    (hParse : parseQuery query = some qe) (text : List UInt8) :
    qe.matches (acsmSearch m.a text) (acsmSearchKw m.a text) =
      some (decide (Satisfies text query)) ↔
      (operands query).length ≤ 3 := by
  obtain ⟨hOps, hWords⟩ := parseQuery_eq hFilled hParse
  have hNil : qe.query ≠ [] := by
    rw [hWords, Ne, List.map_eq_nil_iff]
    exact List.splitOnP_ne_nil _ query
  have hBlank : [] ∉ qe.query := by
    rw [hWords]
    intro hMem
    obtain ⟨operand, hOperand, hTrim⟩ := List.mem_map.mp hMem
    exact (hFilled operand hOperand).trim hTrim
  rw [h.matches_eq hqe hNil hBlank, hOps, hWords]
  constructor
  · intro hValue
    by_contra hFour
    rw [evaluate_four (by simpa using hFour)] at hValue
    cases hValue
  · intro hThree
    rw [evaluate_eq (fun o ho => (List.mem_filter.mp ho).2) (by simpa using length_operands query)
      (by simpa using hThree), valueFrom_satisfies]

end Evaluation

/-- After every run of calls, a rule of non-blank operands evaluates to whether the text satisfies
its query exactly when it has at most three of them. -/
theorem match_satisfies (calls : List Call) (hCalls : ∀ call ∈ calls, 0 ∉ call.query)
    (r : Stores) (hRun : calls.foldlM Call.run noRules = some r) (query : List UInt8)
    (qe : QueryExpression) (hFilled : ∀ operand ∈ operands query, NonBlank operand)
    (hParse : parseQuery query = some qe) (text : List UInt8) :
    (some qe ∈ r.table →
    (match_ r.automata qe text = some (decide (Satisfies (cstr text) query)) ↔
      (operands query).length ≤ 3)) ∧
    (some qe ∈ r.tableN →
    (matchN r.automata qe text = some (decide (Satisfies (cstr text) query)) ↔
      (operands query).length ≤ 3)) := by
  have hSound := noRules_sound.calls hCalls hRun
  exact ⟨fun hqe => hSound.words.matches_satisfies hqe hFilled hParse (cstr text),
    fun hqe => hSound.wordsN.matches_satisfies hqe hFilled hParse (cstr text)⟩

/-- The rule `a & b # c`, on a text with `c`. -/
theorem match_satisfies_and_or :
    ∃ r qe,
      [Call.addQueryRule (ascii ['a', ' ', '&', ' ', 'b', ' ', '#', ' ', 'c'])].foldlM Call.run
        noRules = some r ∧
      parseQuery (ascii ['a', ' ', '&', ' ', 'b', ' ', '#', ' ', 'c']) = some qe ∧
      match_ r.automata qe (ascii ['x', 'c']) = some true := by
  let query := ascii ['a', ' ', '&', ' ', 'b', ' ', '#', ' ', 'c']
  obtain ⟨r, hAdd⟩ := addQueryRule_total noRules query (by decide) (by decide +kernel)
  have hRun : [Call.addQueryRule query].foldlM Call.run noRules = some r := by
    rw [List.foldlM_cons, Call.run, hAdd]
    rfl
  obtain ⟨qe, hParse⟩ := Option.isSome_iff_exists.mp
    (show (parseQuery query).isSome by decide +kernel)
  have hTable : some qe ∈ r.table := by
    obtain ⟨kw, -, rfl⟩ := addQueryRule_eq hParse hAdd
    simp
  have hMatch := (match_satisfies [.addQueryRule query]
    (by intro call hCall; rw [List.mem_singleton.mp hCall]; decide +kernel) r hRun query qe
    (by decide +kernel) hParse (ascii ['x', 'c'])).1 hTable
  refine ⟨r, qe, hRun, hParse, ?_⟩
  rw [hMatch.mpr (by decide +kernel)]
  exact congrArg some (by decide +kernel)

/-- The rule `a&b&c&d` has no value. -/
theorem match_four_operands :
    ¬∀ calls : List Call, (∀ call ∈ calls, 0 ∉ call.query) → ∀ r : Stores,
      calls.foldlM Call.run noRules = some r → ∀ (query : List UInt8) (qe : QueryExpression),
      query.length < 256 → (operands query).length ≤ 4 →
      (∀ operand ∈ operands query, NonBlank operand) → parseQuery query = some qe →
      some qe ∈ r.table → ∀ text,
      match_ r.automata qe text = some (decide (Satisfies (cstr text) query)) := by
  intro h
  let query := ascii ['a', '&', 'b', '&', 'c', '&', 'd']
  obtain ⟨r, hAdd⟩ := addQueryRule_total noRules query (by decide) (by decide +kernel)
  have hRun : [Call.addQueryRule query].foldlM Call.run noRules = some r := by
    rw [List.foldlM_cons, Call.run, hAdd]
    rfl
  obtain ⟨qe, hParse⟩ := Option.isSome_iff_exists.mp
    (show (parseQuery query).isSome by decide +kernel)
  have hTable : some qe ∈ r.table := by
    obtain ⟨kw, -, rfl⟩ := addQueryRule_eq hParse hAdd
    simp
  have hBytes : ∀ call ∈ [Call.addQueryRule query], 0 ∉ call.query := by
    intro call hCall
    rw [List.mem_singleton.mp hCall]
    decide +kernel
  have hFilled : ∀ operand ∈ operands query, NonBlank operand := by decide +kernel
  have hMatch := h _ hBytes r hRun query qe (by decide) (by decide +kernel) hFilled hParse hTable
    [97]
  have hThree := ((noRules_sound.calls hBytes hRun).words.matches_satisfies hTable hFilled hParse
    (cstr [97])).mp hMatch
  exact absurd hThree (by decide +kernel)

/-! ### Slots -/

/-- The slots of the table: the query of each rule until it is deleted. -/
abbrev Slots := List (Option (List UInt8))

/-- What a call does to the slots. -/
def Call.slots (slots : Slots) : Call → Slots
  | .addQueryRule query => slots ++ [some query]
  | .delQueryRule query => slots.map (·.filter (· ≠ query))
  | _ => slots

/-- The slots after a sequence of calls. -/
def slotsAfter (calls : List Call) : Slots := calls.foldl Call.slots []

/-- The slots whose query the text satisfies, in ascending order. -/
def Slots.hits (slots : Slots) (text : List UInt8) : List Nat :=
  (List.range slots.length).filter fun i => slots[i]?.join.any fun query => Satisfies text query

/-- A query with one to three non-blank operands that fits its arrays. -/
structure Ordinary (query : List UInt8) : Prop where
  bytes : 0 ∉ query
  length : query.length < 256
  count : (operands query).length ≤ 3
  filled : ∀ operand ∈ operands query, NonBlank operand

theorem Ordinary.parse {query : List UInt8} (h : Ordinary query) :
    ∃ qe, parseQuery query = some qe := by
  have hOps := length_operands query
  have hCount := h.count
  exact ⟨_, parseQuery_recorded h.length (by omega)⟩

theorem QueryTable.hits_concat {m : QueryExpression → Option Bool} {table : QueryTable}
    {e : Option QueryExpression} (i : Nat) {slots : List Nat} (h : table.hits m i = some slots) :
    hits m (table ++ [e]) i = (hits m [e] (i + table.length)).map (slots ++ ·) := by
  induction table generalizing i slots with
  | nil =>
    obtain rfl : [] = slots := Option.some.inj h
    simp
  | cons e' table ih =>
    have hIndex : i + 1 + table.length = i + (e' :: table).length := by
      rw [List.length_cons]
      omega
    cases e' with
    | none => rw [List.cons_append, hits, ih (i + 1) h, hIndex]
    | some qe =>
      obtain ⟨hit, hHit, hBind⟩ := Option.bind_eq_some_iff.mp h
      obtain ⟨rest, hRest, hSlots⟩ := Option.bind_eq_some_iff.mp hBind
      obtain rfl := Option.some.inj hSlots
      rw [List.cons_append, hits, hHit, ih (i + 1) hRest, hIndex]
      cases hits m [e] (i + (some qe :: table).length) with
      | none => rfl
      | some last => cases hit <;> rfl

/-- The slots that `logic_query_match` lists, when the rules evaluate as their queries say. -/
theorem QueryTable.hits_slots {m : QueryExpression → Option Bool} {slots : Slots}
    {text : List UInt8} (h : ∀ query, some query ∈ slots → ∃ qe,
    parseQuery query = some qe ∧
      m qe = some (decide (Satisfies text query))) :
    hits m (slots.map (·.bind parseQuery)) 0 = some (slots.hits text) := by
  induction slots using List.reverseRecOn with
  | nil => rfl
  | append_singleton slots slot ih =>
    have hInit := ih fun query hQuery => h query (List.mem_append_left _ hQuery)
    have hFilter : (List.range slots.length).filter (fun i =>
        (slots ++ [slot])[i]?.join.any fun query => Satisfies text query) =
        Slots.hits slots text := by
      refine List.filter_congr fun i hi => ?_
      rw [List.getElem?_append_left (List.mem_range.mp hi)]
    have hSlots : Slots.hits (slots ++ [slot]) text = Slots.hits slots text ++
        [slots.length].filter fun i =>
          (slots ++ [slot])[i]?.join.any fun query => Satisfies text query := by
      rw [← hFilter, ← List.filter_append, ← List.range_succ, Slots.hits, List.length_append]
      rfl
    rw [List.map_append, List.map_singleton, QueryTable.hits_concat 0 hInit, hSlots]
    cases slot with
    | none => simp [hits]
    | some query =>
      obtain ⟨qe, hParse, hMatch⟩ := h query (by simp)
      by_cases hSat : Satisfies text query <;> simp [hits, hParse, hMatch, hSat]

/-! ### Independence -/

/-- A call that takes a slot of the table. -/
def Call.adds : Call → Bool
  | .addQueryRule _ => true
  | _ => false

/-- A call that takes a slot of the table of the monitoring rules. -/
def Call.addsN : Call → Bool
  | .addQueryRuleN _ => true
  | _ => false

/-- The table holds the rules of the slots. -/
structure Stores.Lists (r : Stores) (slots : Slots) : Prop where
  sound : r.Sound
  table : r.table = slots.map (·.bind parseQuery)
  ordinary : ∀ query, some query ∈ slots → Ordinary query

section Lists

variable {r : Stores} {slots : Slots}

theorem Stores.Lists.del (h : r.Lists slots) (query : List UInt8) :
    r.table.del query = (slots.map (·.filter (· ≠ query))).map (·.bind parseQuery) := by
  rw [QueryTable.del, h.table, List.map_map, List.map_map]
  refine List.map_congr_left fun slot hSlot => ?_
  cases slot with
  | none => rfl
  | some query' =>
    have hOrdinary := h.ordinary query' hSlot
    obtain ⟨qe, hParse⟩ := hOrdinary.parse
    have hText := parseQuery_fullText hOrdinary.length hParse
    by_cases hEq : query' = query
    · subst hEq
      simp [Option.filter, hParse, hText]
    · simp [Option.filter, hParse, hText, hEq]

theorem Stores.Lists.call (h : r.Lists slots) {call : Call} (hQuery : Ordinary call.query)
    (hRoom : call.adds = true → slots.length < 10000)
    (hRoomN : call.addsN = true → r.tableN.length < 10000) :
    ∃ r', call.run r = some r' ∧ r'.Lists (call.slots slots) ∧
      r'.tableN.length = r.tableN.length + if call.addsN then 1 else 0 := by
  have hLength : r.table.length = slots.length := by rw [h.table, List.length_map]
  obtain ⟨qe, hParse⟩ := hQuery.parse
  have hSome : (parseQuery call.query).isSome := by rw [hParse]; rfl
  cases call with
  | addQueryRule query =>
    obtain ⟨r', hRun⟩ := addQueryRule_total r query (by rw [hLength]; exact hRoom rfl) hSome
    obtain ⟨kw, -, hRes⟩ := addQueryRule_eq hParse hRun
    refine ⟨r', hRun, ⟨h.sound.call hQuery.bytes hRun, ?_, ?_⟩, by rw [hRes]; rfl⟩
    · rw [hRes, Call.slots, List.map_append, ← h.table]
      simp [show parseQuery query = some qe from hParse]
    · intro query' hMem
      rcases List.mem_append.mp hMem with hMem | hMem
      · exact h.ordinary query' hMem
      · obtain rfl : query' = query := by simpa using hMem
        exact hQuery
  | addQueryRuleN query =>
    obtain ⟨r', hRun⟩ := addQueryRuleN_total r query (hRoomN rfl) hSome
    obtain ⟨kwN, -, hRes⟩ := addQueryRuleN_eq hParse hRun
    refine ⟨r', hRun, ⟨h.sound.call hQuery.bytes hRun, ?_, h.ordinary⟩, ?_⟩
    · rw [hRes]
      exact h.table
    · rw [hRes, List.length_append]
      rfl
  | delQueryRule query =>
    refine ⟨_, rfl, ⟨h.sound.call hQuery.bytes rfl, h.del query,
      fun query' hMem => ?_⟩, rfl⟩
    obtain ⟨slot, hSlot, hFilter⟩ := List.mem_map.mp hMem
    obtain ⟨rfl, -⟩ := Option.filter_eq_some_iff.mp hFilter
    exact h.ordinary query' hSlot
  | delQueryRuleN query =>
    refine ⟨_, rfl, ⟨h.sound.call hQuery.bytes rfl, h.table, h.ordinary⟩, ?_⟩
    exact List.length_map _

theorem Call.length_slots (slots : Slots) (call : Call) :
    (call.slots slots).length = slots.length + if call.adds then 1 else 0 := by
  cases call <;> simp [Call.slots, Call.adds]

theorem Stores.Lists.hits (h : r.Lists slots) {text : List UInt8}
    (hRoom : (Slots.hits slots (cstr text)).length ≤ 32) :
    logicQueryMatch r text = some (Slots.hits slots (cstr text)) := by
  have hMatch : ∀ query, some query ∈ slots → ∃ qe, parseQuery query = some qe ∧
      match_ r.automata qe text = some (decide (Satisfies (cstr text) query)) := by
    intro query hMem
    have hOrdinary := h.ordinary query hMem
    obtain ⟨qe, hParse⟩ := hOrdinary.parse
    have hqe : some qe ∈ r.table := by
      rw [h.table]
      exact List.mem_map.mpr ⟨some query, hMem, hParse⟩
    exact ⟨qe, hParse, (h.sound.words.matches_satisfies hqe hOrdinary.filled hParse
      (cstr text)).mpr hOrdinary.count⟩
  rw [logicQueryMatch, h.table, QueryTable.hits_slots hMatch]
  exact if_pos hRoom

theorem noRules_lists : noRules.Lists [] := ⟨noRules_sound, rfl, by simp⟩

/-- The rules after a run of calls are those of the slots. -/
theorem calls_lists (calls : List Call) (hCalls : ∀ call ∈ calls, Ordinary call.query)
    (hAdds : calls.countP Call.adds ≤ 10000) (hAddsN : calls.countP Call.addsN ≤ 10000) :
    ∃ r, calls.foldlM Call.run noRules = some r ∧ r.Lists (slotsAfter calls) := by
  obtain ⟨r, hRun, hLists, -⟩ := foldlM_invariant Call.run
    (fun done r => r.Lists (slotsAfter done) ∧
      (slotsAfter done).length = done.countP Call.adds ∧
      r.tableN.length = done.countP Call.addsN)
    calls (s := noRules) ⟨noRules_lists, rfl, rfl⟩ fun done call rest hSplit r hr => by
      obtain ⟨hLists, hLength, hLengthN⟩ := hr
      rw [hSplit, List.countP_append, List.countP_cons] at hAdds hAddsN
      have hSlots : slotsAfter (done ++ [call]) = call.slots (slotsAfter done) := by
        simp [slotsAfter]
      obtain ⟨r', hRun, hLists', hTableN⟩ := hLists.call (hCalls call (by simp [hSplit]))
        (fun hAdd => by rw [if_pos hAdd] at hAdds; omega)
        (fun hAdd => by rw [if_pos hAdd] at hAddsN; omega)
      refine ⟨r', hRun, hSlots ▸ hLists', ?_, ?_⟩
      · rw [hSlots, call.length_slots, hLength, List.countP_append, List.countP_singleton]
      · rw [hTableN, hLengthN, List.countP_append, List.countP_singleton]
  exact ⟨r, hRun, hLists⟩

end Lists

theorem Slots.mem_hits {slots : Slots} {text query : List UInt8} {i : Nat}
    (h : slots[i]? = some (some query)) : i ∈ Slots.hits slots text ↔ Satisfies text query := by
  obtain ⟨hi, -⟩ := List.getElem?_eq_some_iff.mp h
  rw [Slots.hits, List.mem_filter, List.mem_range, and_iff_right hi, h]
  simp

/-- After every run of calls, `logic_query_match` lists the slots of the rules that have not been
deleted and whose query the text satisfies, in ascending order, and it lists a live rule exactly
when it lists it as the only rule. -/
theorem rules_independent (calls : List Call) (hCalls : ∀ call ∈ calls, Ordinary call.query)
    (hAdds : calls.countP Call.adds ≤ 10000) (hAddsN : calls.countP Call.addsN ≤ 10000)
    (text : List UInt8) (hHits : (Slots.hits (slotsAfter calls) (cstr text)).length ≤ 32) :
    ∃ r, calls.foldlM Call.run noRules = some r ∧
      logicQueryMatch r text = some (Slots.hits (slotsAfter calls) (cstr text)) ∧
      ∀ i query, (slotsAfter calls)[i]? = some (some query) →
        ∃ alone hits, [Call.addQueryRule query].foldlM Call.run noRules = some alone ∧
          logicQueryMatch alone text = some hits ∧
          (i ∈ Slots.hits (slotsAfter calls) (cstr text) ↔ 0 ∈ hits) := by
  obtain ⟨r, hRun, hLists⟩ := calls_lists calls hCalls hAdds hAddsN
  refine ⟨r, hRun, hLists.hits hHits, fun i query hSlot => ?_⟩
  have hOrdinary := hLists.ordinary query (List.mem_of_getElem? hSlot)
  obtain ⟨alone, hRunAlone, hAlone⟩ := calls_lists [.addQueryRule query]
    (by simpa [Call.query] using hOrdinary) (by simp [Call.adds]) (by simp [Call.addsN])
  have hLength : (Slots.hits [some query] (cstr text)).length ≤ 32 :=
    (List.length_filter_le _ _).trans (by simp)
  refine ⟨alone, _, hRunAlone, hAlone.hits hLength, ?_⟩
  rw [Slots.mem_hits hSlot]
  exact (Slots.mem_hits rfl).symm

/-- The rules `a` and `ab#c`, of which the first is deleted. -/
theorem rules_independent_del :
    ∃ r,
      [Call.addQueryRule [97], .addQueryRule [97, 98, 35, 99], .delQueryRule [97]].foldlM Call.run
        noRules = some r ∧ logicQueryMatch r [97, 98] = some [1] := by
  have hOrdinary : ∀ query ∈ [[97], [97, 98, 35, 99]], Ordinary query := by
    intro query hMem
    have hAll : ∀ query ∈ [[97], [97, 98, 35, 99]], 0 ∉ query ∧ query.length < 256 ∧
        (operands query).length ≤ 3 ∧ ∀ operand ∈ operands query, NonBlank operand := by
      decide +kernel
    obtain ⟨hBytes, hLength, hCount, hFilled⟩ := hAll query hMem
    exact ⟨hBytes, hLength, hCount, hFilled⟩
  obtain ⟨r, hRun, hHits, -⟩ := rules_independent
    [.addQueryRule [97], .addQueryRule [97, 98, 35, 99], .delQueryRule [97]]
    (by
      intro call hCall
      refine hOrdinary call.query ?_
      revert call
      simp [Call.query])
    (by decide) (by decide) [97, 98] (by decide +kernel)
  exact ⟨r, hRun, hHits.trans (congrArg some (by decide +kernel))⟩

end Shutter.Rules
