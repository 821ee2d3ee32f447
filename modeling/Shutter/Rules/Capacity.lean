import Shutter.Rules.Calls
import Shutter.Rules.Keywords

/-! The capacities of the query tables.  A query goes to arrays of four words and three operators, a
rule to a table of 10000 slots, and a match to a list of 32 hits. -/

namespace Shutter.Rules

open Shutter.Acsm Shutter.StringMatcher Shutter.Library Shutter.Rules.Matchers

/-- The slots that `logic_query_match` writes to `hit_rule_list`, up to the first rule from which
`match_` does not return. -/
def QueryTable.written (m : QueryExpression → Option Bool) : QueryTable → Nat → List Nat
  | [], _ => []
  | none :: table, i => written m table (i + 1)
  | some qe :: table, i =>
    match m qe with
    | none => []
    | some true => i :: written m table (i + 1)
    | some false => written m table (i + 1)

/-- The queries of the calls of `add_query_rule`, by slot. -/
def queriesOf (calls : List Call) : List (List UInt8) :=
  (calls.filter Call.adds).map Call.query

/-- The queries of the calls of `add_query_rule_N`, by slot. -/
def queriesNOf (calls : List Call) : List (List UInt8) :=
  (calls.filter Call.addsN).map Call.query

/-- `del_query_rule` finds each rule by the text of its query. -/
def Finds (table : QueryTable) (queries : List (List UInt8)) : Prop :=
  ∀ (i : Nat) (query : List UInt8), queries[i]? = some query → (table.del query)[i]? = some none

/-- The calls stay within the arrays, and so does the match of a text behind them. -/
def Respects (calls : List Call) (text : List UInt8) : Prop :=
  ∃ r, calls.foldlM Call.run noRules = some r ∧
    Finds r.table (queriesOf calls) ∧ Finds r.tableN (queriesNOf calls) ∧
    (r.table.written (match_ r.automata · text) 0).length ≤ 32 ∧
    (r.tableN.written (matchN r.automata · text) 0).length ≤ 32

/-- The words that `parse` records. -/
def words (query : List UInt8) : List Pattern := (recorded query).map trim

/-- The word counts as found in the text, when the automaton holds `ws`.  The empty word is found
with a byte that begins none of them. -/
def holds (ws : List Pattern) (text w : List UInt8) : Bool :=
  if w = [] then text.any fun c => !decide (PrefixOfSome ws [c]) else decide (w <:+: text)

/-- The number of queries that the text satisfies, of those before the first one with no words or
with four. -/
def satisfied (ws : List Pattern) (text : List UInt8) : List (List UInt8) → Nat
  | [] => 0
  | query :: queries =>
    match evaluate (query.filter isLogic) ((words query).map (holds ws text)) with
    | none => 0
    | some hit => hit.toNat + satisfied ws text queries

/-- The calls and the text stay within the capacities. -/
structure WithinCapacity (calls : List Call) (text : List UInt8) : Prop where
  queries : ∀ call ∈ calls, call.query.length < 256 ∧ (call.query.filter isLogic).length ≤ 3
  table : (queriesOf calls).length ≤ 10000
  tableN : (queriesNOf calls).length ≤ 10000
  hits : satisfied ((queriesOf calls).flatMap words) text (queriesOf calls) ≤ 32
  hitsN : satisfied ((queriesNOf calls).flatMap words) text (queriesNOf calls) ≤ 32

/-! ### One query -/

/-- What `parse` records of a query that its arrays have room for. -/
theorem parseQuery_fits {query : List UInt8} {qe : QueryExpression}
    (h : parseQuery query = some qe) : qe.logicOps = query.filter isLogic ∧
      qe.query = words query ∧
      qe.fullText = (if 0 < query.length ∧ query.length < 1000 then query else []) ∧
        qe.Fits := by
  unfold parseQuery at h
  simp only [Option.ite_none_right_eq_some, parseLoop_eq] at h
  obtain ⟨hFits, hSome⟩ := h
  rw [← Option.some.inj hSome]
  exact ⟨rfl, rfl, rfl, hFits⟩

/-- The full text is the query when it fits the array, and the query of 1000 bytes or more is not
copied. -/
theorem fullText_iff {query : List UInt8} {qe : QueryExpression}
    (h : parseQuery query = some qe) : qe.fullText = query ↔ query.length < 256 := by
  obtain ⟨-, -, hText, -, -, -, hLength⟩ := parseQuery_fits h
  constructor
  · intro heq
    rwa [heq] at hLength
  · intro hShort
    rw [hText]
    cases query with
    | nil => rfl
    | cons c query => exact if_pos ⟨Nat.succ_pos _, by omega⟩

/-! ### One table -/

/-- The pair of automata and the table behind the additions of some queries. -/
structure Filled (m : Buffers) (table : QueryTable) (queries : List (List UInt8)) : Prop where
  table : table = queries.map parseQuery
  parsed : ∀ query ∈ queries, ∃ qe, parseQuery query = some qe
  keeps : KeepsStrings m ((queries.flatMap words).foldl Held.add none)
  compiles : Compiles m ((queries.flatMap words).foldl Held.add none)

theorem foldl_add_some (ws ps : List Pattern) :
    ws.foldl Held.add (some ps) = some (ws.reverse ++ ps) := by
  induction ws generalizing ps with
  | nil => rfl
  | cons w ws ih =>
    have hRest := ih (w :: ps)
    simpa [Held.add] using hRest

theorem foldl_add_none {ws : List Pattern} (h : ws ≠ []) :
    ws.foldl Held.add none = some ws.reverse := by
  obtain ⟨w, ws, rfl⟩ := List.exists_cons_of_ne_nil h
  have hRest := foldl_add_some ws [w]
  simpa [Held.add] using hRest

theorem foldlM_add_keeps {ws : List Pattern} (hWords : ∀ w ∈ ws, 0 ∉ w)
    {m : Buffers} {h : Held} (hKeeps : KeepsStrings m h) (hCompiles : Compiles m h) :
    ∃ m', ws.foldlM Buffers.add m = some m' ∧ KeepsStrings m' (ws.foldl Held.add h) ∧
      Compiles m' (ws.foldl Held.add h) := by
  induction ws generalizing m h with
  | nil => exact ⟨m, rfl, hKeeps, hCompiles⟩
  | cons w ws ih =>
    have hw := hWords w List.mem_cons_self
    obtain ⟨m₁, hAdd, hKeeps₁⟩ := hKeeps.add hw
    obtain ⟨m', hRun, hEnd⟩ := ih (fun v hv => hWords v (List.mem_cons_of_mem _ hv)) hKeeps₁
      (hKeeps.add_compiles hw hAdd)
    exact ⟨m', by rw [List.foldlM_cons, hAdd]; exact hRun, hEnd⟩

theorem filled_nil : Filled ⟨acsmNew, acsmNew⟩ [] [] :=
  ⟨rfl, by simp, init_keeps.kw, fun _ hSome => (Option.some_ne_none _ hSome.symm).elim⟩

section Filled

variable {m : Buffers} {table : QueryTable} {queries : List (List UInt8)} {query : List UInt8}
  {qe : QueryExpression}

theorem Filled.add (h : Filled m table queries) (hBytes : 0 ∉ query)
    (hParse : parseQuery query = some qe) :
    ∃ m', qe.query.foldlM Buffers.add m = some m' ∧
      Filled m' (table ++ [some qe]) (queries ++ [query]) := by
  obtain ⟨m', hRun, hKeeps, hCompiles⟩ :=
    foldlM_add_keeps (parseQuery_words hBytes hParse) h.keeps h.compiles
  have hWords : ((queries ++ [query]).flatMap words).foldl Held.add none =
      qe.query.foldl Held.add ((queries.flatMap words).foldl Held.add none) := by
    rw [List.flatMap_append, List.flatMap_singleton, List.foldl_append,
      (parseQuery_fits hParse).2.1]
  refine ⟨m', hRun, ⟨?_, fun q hq => ?_, hWords ▸ hKeeps, hWords ▸ hCompiles⟩⟩
  · rw [h.table, List.map_append, List.map_singleton, hParse]
  · rcases List.mem_append.mp hq with hq | hq
    · exact h.parsed q hq
    · rw [List.mem_singleton.mp hq]
      exact ⟨qe, hParse⟩

/-- A rule with words evaluates to the branch for its operators and the words that the text has. -/
theorem Filled.matches_eq (h : Filled m table queries) (hQuery : query ∈ queries)
    (hParse : parseQuery query = some qe) (text : List UInt8) :
    qe.matches (acsmSearch m.a text) (acsmSearchKw m.a text) =
      evaluate (query.filter isLogic)
        ((words query).map (holds (queries.flatMap words) text)) := by
  obtain ⟨hOps, hWords, -, -⟩ := parseQuery_fits hParse
  by_cases hNil : words query = []
  · have hTf : ∀ kw, populateTf qe kw = [] := by
      intro kw
      rw [populateTf, hWords, hNil]
      rfl
    rw [hNil, List.map_nil, QueryExpression.matches]
    simp only [hTf]
    cases acsmSearch m.a text <;> cases acsmSearchKw m.a text <;> rfl
  · have hAll : queries.flatMap words ≠ [] := by
      intro hEmpty
      exact hNil (List.flatMap_eq_nil_iff.mp hEmpty query hQuery)
    have hHeld := foldl_add_none hAll
    obtain ⟨b, hCompile, hTable⟩ := h.compiles _ hHeld
    obtain ⟨kws, hKws, -, -, hEmpty⟩ := acsmSearchKw_lists hCompile hTable text
    obtain ⟨kws', hKws', hMem⟩ := acsmSearchKw_spec (h.keeps.searches _ hHeld) text
    obtain rfl := Option.some.inj (hKws.symm.trans hKws')
    have hTf : populateTf qe kws = (words query).map (holds (queries.flatMap words) text) := by
      rw [populateTf, hWords]
      refine List.map_congr_left fun w hw => ?_
      have hListed : w ∈ (queries.flatMap words).reverse :=
        List.mem_reverse.mpr (List.mem_flatMap.mpr ⟨query, hQuery, hw⟩)
      by_cases hBlank : w = []
      · subst hBlank
        have hBegins : ∀ c, PrefixOfSome (queries.flatMap words).reverse [c] ↔
            PrefixOfSome (queries.flatMap words) [c] := by simp [PrefixOfSome]
        rw [holds, if_pos rfl, Bool.eq_iff_iff, decide_eq_true_iff, hEmpty, List.any_eq_true]
        simp only [hListed, true_and, hBegins, Bool.not_eq_true', decide_eq_false_iff_not]
      · rw [holds, if_neg hBlank]
        refine decide_eq_decide.mpr ?_
        rw [hMem w hBlank]
        exact and_iff_right hListed
    rw [QueryExpression.matches, acsmSearch_of_kw hKws, hKws]
    simp only [Option.bind_eq_bind, Option.bind_some, List.take_length, hTf, hOps]

/-- The hits that are stored are the queries that the text satisfies. -/
theorem length_written {m : QueryExpression → Option Bool} {ws : List Pattern} {text : List UInt8}
    (h : ∀ query ∈ queries, ∃ qe, parseQuery query = some qe ∧
      m qe = evaluate (query.filter isLogic) ((words query).map (holds ws text))) (i : Nat) :
    (QueryTable.written m (queries.map parseQuery) i).length = satisfied ws text queries := by
  induction queries generalizing i with
  | nil => rfl
  | cons query queries ih =>
    have hRest := ih (fun q hq => h q (List.mem_cons_of_mem _ hq)) (i + 1)
    obtain ⟨qe, hParse, hValue⟩ := h query List.mem_cons_self
    rw [List.map_cons, hParse, QueryTable.written, satisfied, ← hValue]
    cases m qe with
    | none => rfl
    | some hit =>
      cases hit with
      | false => simpa using hRest
      | true => simpa [Nat.add_comm] using hRest

theorem Filled.length_written (h : Filled m table queries) (text : List UInt8) :
    (table.written (fun qe => qe.matches (acsmSearch m.a text) (acsmSearchKw m.a text)) 0).length =
      satisfied (queries.flatMap words) text queries := by
  rw [h.table]
  refine Rules.length_written (fun query hQuery => ?_) 0
  obtain ⟨qe, hParse⟩ := h.parsed query hQuery
  exact ⟨qe, hParse, h.matches_eq hQuery hParse text⟩

/-- A deletion finds the rules whose full text is their query. -/
theorem Filled.finds_iff (h : Filled m table queries) :
    Finds table queries ↔ ∀ query ∈ queries, query.length < 256 := by
  have hSlot : ∀ (i : Nat) (query : List UInt8), queries[i]? = some query →
      ((table.del query)[i]? = some none ↔ query.length < 256) := by
    intro i query hi
    obtain ⟨qe, hParse⟩ := h.parsed query (List.mem_of_getElem? hi)
    rw [← fullText_iff hParse, QueryTable.del, h.table, List.getElem?_map, List.getElem?_map, hi]
    by_cases hText : qe.fullText = query <;> simp [hParse, hText, Option.filter]
  constructor
  · intro hFinds query hQuery
    obtain ⟨i, hi⟩ := List.mem_iff_getElem?.mp hQuery
    exact (hSlot i query hi).mp (hFinds i query hi)
  · intro hShort i query hi
    exact (hSlot i query hi).mpr (hShort query (List.mem_of_getElem? hi))

end Filled

/-! ### Runs -/

/-- The tables behind a run of additions. -/
structure Stored (calls : List Call) (r : Stores) : Prop where
  kw : Filled r.automata.kw r.table (queriesOf calls)
  kwN : Filled r.automata.kwN r.tableN (queriesNOf calls)

theorem queriesOf_add (calls : List Call) (query : List UInt8) :
    queriesOf (calls ++ [.addQueryRule query]) = queriesOf calls ++ [query] ∧
      queriesNOf (calls ++ [.addQueryRule query]) = queriesNOf calls := by
  constructor
  · rw [queriesOf, queriesOf, List.filter_append, List.map_append]
    rfl
  · rw [queriesNOf, queriesNOf, List.filter_append, List.map_append]
    exact List.append_nil _

theorem queriesNOf_add (calls : List Call) (query : List UInt8) :
    queriesOf (calls ++ [.addQueryRuleN query]) = queriesOf calls ∧
      queriesNOf (calls ++ [.addQueryRuleN query]) = queriesNOf calls ++ [query] := by
  constructor
  · rw [queriesOf, queriesOf, List.filter_append, List.map_append]
    exact List.append_nil _
  · rw [queriesNOf, queriesNOf, List.filter_append, List.map_append]
    rfl

/-- A call that adds a rule. -/
def Call.isAddition (call : Call) : Prop := call.adds ∨ call.addsN

/-- An addition finds room for its query and a slot, or leaves the arrays. -/
def Allowed (calls : List Call) : Call → Prop
  | .addQueryRule query => (parseQuery query).isSome ∧ (queriesOf calls).length < 10000
  | .addQueryRuleN query => (parseQuery query).isSome ∧ (queriesNOf calls).length < 10000
  | _ => False

theorem Stored.run {calls : List Call} {r : Stores} (h : Stored calls r) {call : Call}
    (hBytes : 0 ∉ call.query) (hAllowed : Allowed calls call) :
    ∃ r', call.run r = some r' ∧ Stored (calls ++ [call]) r' := by
  cases call with
  | addQueryRule query =>
    obtain ⟨hParse, hRoom⟩ := hAllowed
    obtain ⟨qe, hParse⟩ := Option.isSome_iff_exists.mp hParse
    obtain ⟨kw, hRun, hFilled⟩ := h.kw.add hBytes hParse
    obtain ⟨hQueries, hQueriesN⟩ := queriesOf_add calls query
    have hLength : r.table.length < 10000 := by
      rwa [h.kw.table, List.length_map]
    refine ⟨{ r with automata := { r.automata with kw }, table := r.table ++ [some qe] },
      ?_, ?_⟩
    · rw [Call.run, addQueryRule_parsed r hParse, if_pos hLength, hRun]
      rfl
    · exact ⟨hQueries ▸ hFilled, hQueriesN ▸ h.kwN⟩
  | addQueryRuleN query =>
    obtain ⟨hParse, hRoom⟩ := hAllowed
    obtain ⟨qe, hParse⟩ := Option.isSome_iff_exists.mp hParse
    obtain ⟨kwN, hRun, hFilled⟩ := h.kwN.add hBytes hParse
    obtain ⟨hQueries, hQueriesN⟩ := queriesNOf_add calls query
    have hLength : r.tableN.length < 10000 := by
      rwa [h.kwN.table, List.length_map]
    refine ⟨{ r with automata := { r.automata with kwN }, tableN := r.tableN ++ [some qe] },
      ?_, ?_⟩
    · rw [Call.run, addQueryRuleN_parsed r hParse, if_pos hLength, hRun]
      rfl
    · exact ⟨hQueries ▸ h.kw, hQueriesN ▸ hFilled⟩
  | delQueryRule query => exact hAllowed.elim
  | delQueryRuleN query => exact hAllowed.elim

theorem Stored.run_none {calls : List Call} {r : Stores} (h : Stored calls r) {call : Call}
    (hAdd : call.isAddition) (hAllowed : ¬Allowed calls call) : call.run r = none := by
  cases call with
  | addQueryRule query =>
    cases hParse : parseQuery query with
    | none => exact addQueryRule_unparsed r hParse
    | some qe =>
      have hLength : ¬r.table.length < 10000 := by
        rw [h.kw.table, List.length_map]
        exact fun hRoom => hAllowed ⟨by rw [hParse]; rfl, hRoom⟩
      rw [Call.run, addQueryRule_parsed r hParse, if_neg hLength]
  | addQueryRuleN query =>
    cases hParse : parseQuery query with
    | none => exact addQueryRuleN_unparsed r hParse
    | some qe =>
      have hLength : ¬r.tableN.length < 10000 := by
        rw [h.kwN.table, List.length_map]
        exact fun hRoom => hAllowed ⟨by rw [hParse]; rfl, hRoom⟩
      rw [Call.run, addQueryRuleN_parsed r hParse, if_neg hLength]
  | delQueryRule query => simp [Call.isAddition, Call.adds, Call.addsN] at hAdd
  | delQueryRuleN query => simp [Call.isAddition, Call.adds, Call.addsN] at hAdd

theorem noRules_stored : Stored [] noRules := ⟨filled_nil, filled_nil⟩

theorem stored_of_run {calls : List Call} (hCalls : ∀ call ∈ calls, 0 ∉ call.query)
    (hAdd : ∀ call ∈ calls, call.isAddition) {r : Stores}
    (hRun : calls.foldlM Call.run noRules = some r) :
    Stored calls r ∧ (queriesOf calls).length ≤ 10000 ∧
      (queriesNOf calls).length ≤ 10000 := by
  refine foldlM_kept Call.run (fun done r => Stored done r ∧ (queriesOf done).length ≤ 10000 ∧
    (queriesNOf done).length ≤ 10000) calls ⟨noRules_stored, by decide, by decide⟩ hRun ?_
  rintro done call hMem r r' ⟨hStored, hTable, hTableN⟩ hStep
  have hAllowed : Allowed done call := by
    by_contra hNot
    rw [hStored.run_none (hAdd call hMem) hNot] at hStep
    cases hStep
  obtain ⟨r'', hRun', hStored'⟩ := hStored.run (hCalls call hMem) hAllowed
  obtain rfl := Option.some.inj (hRun'.symm.trans hStep)
  refine ⟨hStored', ?_⟩
  cases call with
  | addQueryRule query =>
    obtain ⟨hQueries, hQueriesN⟩ := queriesOf_add done query
    rw [hQueries, hQueriesN, List.length_append, List.length_singleton]
    exact ⟨hAllowed.2, hTableN⟩
  | addQueryRuleN query =>
    obtain ⟨hQueries, hQueriesN⟩ := queriesNOf_add done query
    rw [hQueries, hQueriesN, List.length_append, List.length_singleton]
    exact ⟨hTable, hAllowed.2⟩
  | delQueryRule query => exact hAllowed.elim
  | delQueryRuleN query => exact hAllowed.elim

/-- A run of additions ends when each query fits and there are not too many. -/
theorem run_of_fits (calls : List Call) (hCalls : ∀ call ∈ calls, 0 ∉ call.query)
    (hAdd : ∀ call ∈ calls, call.isAddition)
    (hFits : ∀ call ∈ calls, (parseQuery call.query).isSome)
    (hTable : (queriesOf calls).length ≤ 10000) (hTableN : (queriesNOf calls).length ≤ 10000) :
    ∃ r, calls.foldlM Call.run noRules = some r := by
  obtain ⟨r, hRun, -⟩ := foldlM_invariant Call.run Stored calls noRules_stored
    fun done call rest hSplit r hStored => by
      have hMem : call ∈ calls := by simp [hSplit]
      have hParse := hFits call hMem
      refine hStored.run (hCalls call hMem) ?_
      cases call with
      | addQueryRule query =>
        refine ⟨hParse, ?_⟩
        simp only [hSplit, queriesOf, List.filter_append, List.map_append, List.length_append,
          List.filter_cons_of_pos (show Call.adds (.addQueryRule query) = true from rfl),
          List.map_cons, List.length_cons] at hTable ⊢
        omega
      | addQueryRuleN query =>
        refine ⟨hParse, ?_⟩
        simp only [hSplit, queriesNOf, List.filter_append, List.map_append, List.length_append,
          List.filter_cons_of_pos (show Call.addsN (.addQueryRuleN query) = true from rfl),
          List.map_cons, List.length_cons] at hTableN ⊢
        omega
      | delQueryRule query => simpa [Call.isAddition, Call.adds, Call.addsN] using hAdd _ hMem
      | delQueryRuleN query => simpa [Call.isAddition, Call.adds, Call.addsN] using hAdd _ hMem
  exact ⟨r, hRun⟩

theorem mem_queries {calls : List Call} (hAdd : ∀ call ∈ calls, call.isAddition) {call : Call}
    (hCall : call ∈ calls) : call.query ∈ queriesOf calls ∨
    call.query ∈ queriesNOf calls := by
  rcases hAdd call hCall with h | h
  · exact Or.inl (List.mem_map_of_mem (List.mem_filter.mpr ⟨hCall, h⟩))
  · exact Or.inr (List.mem_map_of_mem (List.mem_filter.mpr ⟨hCall, h⟩))

theorem queries_mem {calls : List Call} {query : List UInt8}
    (h : query ∈ queriesOf calls ∨ query ∈ queriesNOf calls) :
    ∃ call ∈ calls, call.query = query := by
  rcases h with h | h <;>
  · obtain ⟨call, hCall, rfl⟩ := List.mem_map.mp h
    exact ⟨call, (List.mem_filter.mp hCall).1, rfl⟩

/-- The additions and a match behind them stay within the arrays exactly when each query is shorter
than 256 bytes and has at most three operators, there are at most 10000 rules of each kind, and the
text satisfies at most 32 of each. -/
theorem respects_iff (calls : List Call) (hCalls : ∀ call ∈ calls, 0 ∉ call.query)
    (hAdd : ∀ call ∈ calls, call.isAddition) (text : List UInt8) :
    Respects calls text ↔ WithinCapacity calls (cstr text) := by
  constructor
  · rintro ⟨r, hRun, hFinds, hFindsN, hHits, hHitsN⟩
    obtain ⟨hStored, hTable, hTableN⟩ := stored_of_run hCalls hAdd hRun
    refine ⟨fun call hCall => ?_, hTable, hTableN, ?_, ?_⟩
    · have hParsed : ∃ qe, parseQuery call.query = some qe :=
        (mem_queries hAdd hCall).elim (hStored.kw.parsed _) (hStored.kwN.parsed _)
      obtain ⟨qe, hParse⟩ := hParsed
      obtain ⟨hOps, -, -, hFits⟩ := parseQuery_fits hParse
      refine ⟨?_, hOps ▸ hFits.1⟩
      exact (mem_queries hAdd hCall).elim (hStored.kw.finds_iff.mp hFinds _)
        (hStored.kwN.finds_iff.mp hFindsN _)
    · exact (hStored.kw.length_written (cstr text)).symm.trans_le hHits
    · exact (hStored.kwN.length_written (cstr text)).symm.trans_le hHitsN
  · intro h
    have hParse : ∀ call ∈ calls, (parseQuery call.query).isSome := by
      intro call hCall
      rw [parseQuery_recorded (h.queries call hCall).1 (h.queries call hCall).2]
      rfl
    obtain ⟨r, hRun⟩ := run_of_fits calls hCalls hAdd hParse h.table h.tableN
    obtain ⟨hStored, -, -⟩ := stored_of_run hCalls hAdd hRun
    have hShort : ∀ query, query ∈ queriesOf calls ∨ query ∈ queriesNOf calls →
        query.length < 256 := by
      intro query hQuery
      obtain ⟨call, hCall, rfl⟩ := queries_mem hQuery
      exact (h.queries call hCall).1
    refine ⟨r, hRun, ?_, ?_, ?_, ?_⟩
    · exact hStored.kw.finds_iff.mpr fun query hQuery => hShort query (Or.inl hQuery)
    · exact hStored.kwN.finds_iff.mpr fun query hQuery => hShort query (Or.inr hQuery)
    · exact (hStored.kw.length_written (cstr text)).trans_le h.hits
    · exact (hStored.kwN.length_written (cstr text)).trans_le h.hitsN

/-- The rule `a` and the monitoring rule `a#b`, with the text `ab`. -/
theorem respects_iff_two :
    Respects [.addQueryRule [97], .addQueryRuleN [97, 35, 98]] [97, 98] := by
  refine (respects_iff [.addQueryRule [97], .addQueryRuleN [97, 35, 98]] ?_ ?_ [97, 98]).mpr ?_
  · simp [Call.query]
  · simp [Call.isAddition, Call.adds, Call.addsN]
  · exact ⟨by simp [Call.query, isLogic], by decide, by decide, by decide +kernel,
      by decide +kernel⟩

/-- A query of four operators writes behind `logic_ops`. -/
theorem respects_fails :
    ¬∀ calls : List Call, (∀ call ∈ calls, 0 ∉ call.query) →
      (∀ call ∈ calls, call.isAddition) →
      ∀ text, Respects calls text := by
  intro h
  obtain ⟨r, hRun, -⟩ := h [.addQueryRule [97, 35, 97, 35, 97, 35, 97, 35, 97]]
    (by simp [Call.query]) (by simp [Call.isAddition, Call.adds]) []
  have hParse : parseQuery [97, 35, 97, 35, 97, 35, 97, 35, 97] = none := by decide +kernel
  simp [Call.run, addQueryRule_unparsed noRules hParse] at hRun

end Shutter.Rules
