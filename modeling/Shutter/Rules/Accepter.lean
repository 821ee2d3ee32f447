import Shutter.Rules.Query
import Shutter.Rules.Down
import Shutter.RuleTrie.Rules

/-! The rule messages of `rule_accepter.c`.  A message is a C string of fields between bars, and a
rule goes to some of the stores: the two query tables with their automata, the url automata, the
trie, and the keywords of the down stream.  A function fails where `strchr` finds no bar, and where
a field does not fit its array. -/

namespace Shutter.Rules

open Shutter.Acsm Shutter.StringMatcher Shutter.RuleTrie

/-- The stores of the rules. -/
structure Stores where
  automata : Automata
  table : QueryTable
  tableN : QueryTable
  trie : Trie
  down : Down

/-- `table[query_count++] = qe`, which fails where none of the 10000 slots is left. -/
def QueryTable.push (table : QueryTable) (qe : QueryExpression) : Option QueryTable :=
  if table.length < 10000 then some (table ++ [some qe]) else none

/-- `add_query_rule`. -/
def addQueryRule (r : Stores) (query : List UInt8) : Option Stores := do
  let (qe, automata) ← parse r.automata query
  let table ← r.table.push qe
  some { r with automata, table }

/-- `add_query_rule_N`. -/
def addQueryRuleN (r : Stores) (query : List UInt8) : Option Stores := do
  let (qe, automata) ← parseN r.automata query
  let tableN ← r.tableN.push qe
  some { r with automata, tableN }

/-- `del_query_rule`. -/
def delQueryRule (r : Stores) (query : List UInt8) : Stores := { r with table := r.table.del query }

/-- `del_query_rule_N`. -/
def delQueryRuleN (r : Stores) (query : List UInt8) : Stores :=
  { r with tableN := r.tableN.del query }

/-- A call that changes the trie only. -/
def Stores.onTrie (r : Stores) (call : Trie → Option Trie) : Option Stores := do
  let trie ← call r.trie
  some { r with trie }

/-- A call that changes the automata only. -/
def Stores.onAutomata (r : Stores) (call : Automata → Option Automata) : Option Stores := do
  let automata ← call r.automata
  some { r with automata }

/-- A call that changes the keywords of the down stream only. -/
def Stores.onDown (r : Stores) (call : Down → Option Down) : Option Stores := do
  let down ← call r.down
  some { r with down }

/-- The stores before the first rule, with empty tables in the database. -/
def noRules : Stores := ⟨initAc, [], [], initTrieTree, downAc⟩

/-- `init_loop`. -/
def initLoop : Option Stores := do
  let r ← addQueryRule noRules
    (ascii ['L', 'i', ' ', '&', ' ', 'H', 'o', 'n', 'g', ' ', '#', ' ', 'Z', 'h', 'i'])
  let r ← addQueryRule r (ascii ['f', 'r', 'e', 'e'])
  addQueryRule r (ascii ['s', 'u', 'n', ' ', '#', ' ', 'p', 'e', 'i', 'y', 'u', 'a', 'n'])

/-! ### The fields of a message -/

/-- `strchr(s, '|') + 1`. -/
def afterBar (s : List UInt8) : Option (List UInt8) :=
  match s.dropWhile (· ≠ 124) with
  | [] => none
  | _ :: rest => some rest

/-- The `n`-th field, from its first byte on. -/
def field : Nat → List UInt8 → Option (List UInt8)
  | 0, s => some s
  | n + 1, s => do
    let s ← afterBar s
    field n s

/-- The bytes up to the next bar: what `memcpy` copies to `rule1`, `rule2` or `rule3`. -/
def upToBar (s : List UInt8) : List UInt8 := s.takeWhile (· ≠ 124)

/-- A rule text that fits an array of 256 bytes with its terminator. -/
def fit256 (s : List UInt8) : Option (List UInt8) := if s.length < 256 then some s else none

/-- The fields of a message of type 1: `rule1`, and the bytes that `state`, `workmode` and
`up_or_down` point to. -/
structure ContentFields where
  rule1 : List UInt8
  state : Option UInt8
  workmode : Option UInt8
  upOrDown : Option UInt8

/-- The beginning of the branch for type 1. -/
def contentFields (rule : List UInt8) : Option ContentFields := do
  let keyword ← field 2 rule
  let state ← field 6 rule
  let workmode ← field 8 rule
  let upOrDown ← field 9 rule
  let rule1 ← fit256 (upToBar keyword)
  some ⟨rule1, state.head?, workmode.head?, upOrDown.head?⟩

/-- The fields of a message of type 2 or 3: the identifier, the action, and the byte that `state`
points to. -/
structure IdFields where
  id : List UInt8
  action : List UInt8
  state : Option UInt8

/-- The beginning of the branches for the types 2 and 3. -/
def idFields (rule : List UInt8) : Option IdFields := do
  let id ← field 2 rule
  let action ← field 3 rule
  let state ← field 7 rule
  let _ ← field 8 rule
  some ⟨upToBar id, upToBar action, state.head?⟩

/-- The fields of a message of type 4. -/
structure UrlFields where
  rule1 : List UInt8
  state : Option UInt8

/-- The beginning of the branch for type 4. -/
def urlFields (rule : List UInt8) : Option UrlFields := do
  let keyword ← field 2 rule
  let state ← field 6 rule
  let _ ← field 7 rule
  let rule1 ← fit256 (upToBar keyword)
  some ⟨rule1, state.head?⟩

/-! ### The branches -/

/-- The branch for type 1, where the mode 50 blocks and the mode 49 monitors. -/
def processContent (r : Stores) (f : ContentFields) : Option Stores :=
  if f.workmode = some 50 then
    if f.state = some 49 then
      if f.upOrDown = some 49 then addQueryRule r f.rule1
      else if f.upOrDown = some 50 then r.onDown (addKeyword · f.rule1)
      else some r
    else if f.state = some 48 then (delQueryRule r f.rule1).onDown (delStr · f.rule1)
    else some r
  else if f.workmode = some 49 then
    if f.state = some 49 then do
      let r ← addQueryRuleN r f.rule1
      if f.upOrDown = some 50 then r.onDown (addKeyword · f.rule1) else some r
    else if f.state = some 48 then some (delQueryRuleN r f.rule1)
    else some r
  else some r

/-- The end of the branches for the types 2 and 3. -/
def processTrie (r : Stores) (state : Option UInt8) (insert : Trie → List UInt8 → Option Trie)
    (rule : List UInt8) : Option Stores := do
  let rule ← fit256 rule
  if state = some 49 then r.onTrie (insert · rule)
  else if state = some 48 then r.onTrie (del · rule)
  else some r

/-- The branch for type 2. -/
def processUser (r : Stores) (f : IdFields) : Option Stores :=
  processTrie r f.state insertForUserid (joinFields f.id f.action [42])

/-- The branch for type 3. -/
def processResource (r : Stores) (f : IdFields) : Option Stores :=
  processTrie r f.state insertForResourceid (joinFields [42] f.action f.id)

/-- The branch for type 4. -/
def processUrl (r : Stores) (f : UrlFields) : Option Stores :=
  if f.state = some 49 then r.onAutomata (addurl · f.rule1)
  else if f.state = some 48 then r.onAutomata (delurl · f.rule1)
  else some r

/-- `rule_process`, for the bytes of a C string. -/
def ruleProcess (r : Stores) (rule : List UInt8) : Option Stores :=
  if rule.head? = some 49 then do processContent r (← contentFields rule)
  else if rule.head? = some 50 then do processUser r (← idFields rule)
  else if rule.head? = some 51 then do processResource r (← idFields rule)
  else if rule.head? = some 52 then do processUrl r (← urlFields rule)
  else some r

theorem Stores.onDown_eq {r : Stores} {call : Down → Option Down} {down : Down}
    (h : call r.down = some down) : r.onDown call = some { r with down } := by
  rw [Stores.onDown, h]
  rfl

/-! ### The words of a rule -/

theorem foldlM_addstr (ws : List (List UInt8)) (g : Automata) :
    ws.foldlM addstr g = (ws.foldlM Buffers.add g.kw).map fun kw => { g with kw } := by
  induction ws generalizing g with
  | nil => rfl
  | cons w ws ih =>
    rw [List.foldlM_cons, List.foldlM_cons, addstr]
    cases g.kw.add w with
    | none => rfl
    | some kw => exact ih { g with kw }

theorem foldlM_addstrN (ws : List (List UInt8)) (g : Automata) :
    ws.foldlM addstrN g = (ws.foldlM Buffers.add g.kwN).map fun kwN => { g with kwN } := by
  induction ws generalizing g with
  | nil => rfl
  | cons w ws ih =>
    rw [List.foldlM_cons, List.foldlM_cons, addstrN]
    cases g.kwN.add w with
    | none => rfl
    | some kwN => exact ih { g with kwN }

theorem publish_searches {m m' : Buffers} (h : m.publish = some m') :
    m'.a.Searches m.b.acsmPatterns := by
  obtain ⟨b, hCompile, -, hSearches⟩ := acsmCompile_searches m.b
  rw [Buffers.publish, hCompile] at h
  obtain rfl := Option.some.inj h
  exact hSearches

theorem publish_total (m : Buffers) : ∃ m', m.publish = some m' := by
  obtain ⟨b, hCompile, -⟩ := acsmCompile_searches m.b
  exact ⟨_, by rw [Buffers.publish, hCompile]; rfl⟩

theorem foldlM_add_searches {ws : List (List UInt8)} {m m' : Buffers}
    (h : ws.foldlM Buffers.add m = some m') (hStart : ws ≠ [] ∨ ∃ ps, m.a.Searches ps) :
    ∃ ps, m'.a.Searches ps := by
  induction ws generalizing m with
  | nil =>
    obtain rfl : m = m' := by simpa using h
    exact hStart.resolve_left (by simp)
  | cons w ws ih =>
    rw [List.foldlM_cons] at h
    obtain ⟨m₁, hAdd, hRest⟩ := Option.bind_eq_some_iff.mp h
    exact ih hRest (Or.inr ⟨_, publish_searches hAdd⟩)

theorem foldlM_add_total (ws : List (List UInt8)) (m : Buffers) :
    ∃ m', ws.foldlM Buffers.add m = some m' := by
  induction ws generalizing m with
  | nil => exact ⟨m, rfl⟩
  | cons w ws ih =>
    obtain ⟨m₁, hAdd⟩ := publish_total ⟨m.a, acsmAddPattern m.b (cstr w)⟩
    rw [List.foldlM_cons, Buffers.add, hAdd]
    exact ih m₁

/-- What `add_query_rule` does with a query that its arrays have room for. -/
theorem addQueryRule_parsed {query : List UInt8} {qe : QueryExpression} (r : Stores)
    (hQuery : parseQuery query = some qe) : addQueryRule r query =
      if r.table.length < 10000 then (qe.query.foldlM Buffers.add r.automata.kw).map fun kw =>
        { r with automata := { r.automata with kw }, table := r.table ++ [some qe] }
      else none := by
  simp only [addQueryRule, parse, foldlM_addstr, hQuery, QueryTable.push, Option.bind_eq_bind,
    Option.bind_some]
  cases qe.query.foldlM Buffers.add r.automata.kw <;> split <;> rfl

/-- What `add_query_rule_N` does with a query that its arrays have room for. -/
theorem addQueryRuleN_parsed {query : List UInt8} {qe : QueryExpression} (r : Stores)
    (hQuery : parseQuery query = some qe) : addQueryRuleN r query =
      if r.tableN.length < 10000 then (qe.query.foldlM Buffers.add r.automata.kwN).map fun kwN =>
        { r with automata := { r.automata with kwN }, tableN := r.tableN ++ [some qe] }
      else none := by
  simp only [addQueryRuleN, parseN, foldlM_addstrN, hQuery, QueryTable.push, Option.bind_eq_bind,
    Option.bind_some]
  cases qe.query.foldlM Buffers.add r.automata.kwN <;> split <;> rfl

theorem addQueryRule_unparsed {query : List UInt8} (r : Stores)
    (hQuery : parseQuery query = none) : addQueryRule r query = none := by
  rw [addQueryRule, parse, hQuery]
  rfl

theorem addQueryRuleN_unparsed {query : List UInt8} (r : Stores)
    (hQuery : parseQuery query = none) : addQueryRuleN r query = none := by
  rw [addQueryRuleN, parseN, hQuery]
  rfl

/-- What `add_query_rule` leaves. -/
theorem addQueryRule_eq {r r' : Stores} {query : List UInt8} {qe : QueryExpression}
    (hQuery : parseQuery query = some qe) (hRun : addQueryRule r query = some r') :
    ∃ kw, qe.query.foldlM Buffers.add r.automata.kw = some kw ∧
      r' = { r with automata := { r.automata with kw }, table := r.table ++ [some qe] } := by
  rw [addQueryRule_parsed r hQuery, Option.ite_none_right_eq_some] at hRun
  obtain ⟨kw, hWords, hRes⟩ := Option.map_eq_some_iff.mp hRun.2
  exact ⟨kw, hWords, hRes.symm⟩

/-- What `add_query_rule_N` leaves. -/
theorem addQueryRuleN_eq {r r' : Stores} {query : List UInt8} {qe : QueryExpression}
    (hQuery : parseQuery query = some qe) (hRun : addQueryRuleN r query = some r') :
    ∃ kwN, qe.query.foldlM Buffers.add r.automata.kwN = some kwN ∧
      r' = { r with automata := { r.automata with kwN }, tableN := r.tableN ++ [some qe] } := by
  rw [addQueryRuleN_parsed r hQuery, Option.ite_none_right_eq_some] at hRun
  obtain ⟨kwN, hWords, hRes⟩ := Option.map_eq_some_iff.mp hRun.2
  exact ⟨kwN, hWords, hRes.symm⟩

theorem addQueryRule_total (r : Stores) (query : List UInt8) (hRoom : r.table.length < 10000)
    (hQuery : (parseQuery query).isSome) : ∃ r', addQueryRule r query = some r' := by
  obtain ⟨qe, hQuery⟩ := Option.isSome_iff_exists.mp hQuery
  obtain ⟨kw, hWords⟩ := foldlM_add_total qe.query r.automata.kw
  exact ⟨_, by rw [addQueryRule_parsed r hQuery, if_pos hRoom, hWords]; rfl⟩

theorem addQueryRuleN_total (r : Stores) (query : List UInt8) (hRoom : r.tableN.length < 10000)
    (hQuery : (parseQuery query).isSome) : ∃ r', addQueryRuleN r query = some r' := by
  obtain ⟨qe, hQuery⟩ := Option.isSome_iff_exists.mp hQuery
  obtain ⟨kwN, hWords⟩ := foldlM_add_total qe.query r.automata.kwN
  exact ⟨_, by rw [addQueryRuleN_parsed r hQuery, if_pos hRoom, hWords]; rfl⟩

theorem addQueryRule_rest {r r' : Stores} {query : List UInt8}
    (hRun : addQueryRule r query = some r') : r'.down = r.down ∧ r'.tableN = r.tableN ∧
      r'.trie = r.trie ∧ r'.table.length = r.table.length + 1 := by
  cases hQuery : parseQuery query with
  | none => simp [addQueryRule_unparsed r hQuery] at hRun
  | some qe =>
    obtain ⟨kw, -, rfl⟩ := addQueryRule_eq hQuery hRun
    exact ⟨rfl, rfl, rfl, List.length_append⟩

theorem addQueryRuleN_rest {r r' : Stores} {query : List UInt8}
    (hRun : addQueryRuleN r query = some r') : r'.down = r.down ∧ r'.table = r.table ∧
      r'.trie = r.trie ∧ r'.tableN.length = r.tableN.length + 1 := by
  cases hQuery : parseQuery query with
  | none => simp [addQueryRuleN_unparsed r hQuery] at hRun
  | some qe =>
    obtain ⟨kwN, -, rfl⟩ := addQueryRuleN_eq hQuery hRun
    exact ⟨rfl, rfl, rfl, List.length_append⟩

/-- `init_loop` leaves three rules of the up stream. -/
theorem initLoop_spec : ∃ r, initLoop = some r ∧ r.down = downAc ∧ r.tableN = [] ∧
    r.trie = initTrieTree ∧ r.table.length = 3 := by
  obtain ⟨r₁, hRun₁⟩ := addQueryRule_total noRules
    (ascii ['L', 'i', ' ', '&', ' ', 'H', 'o', 'n', 'g', ' ', '#', ' ', 'Z', 'h', 'i']) (by decide)
    (by decide)
  obtain ⟨hDown₁, hTableN₁, hTrie₁, hLength₁⟩ := addQueryRule_rest hRun₁
  replace hLength₁ : r₁.table.length = 1 := hLength₁
  obtain ⟨r₂, hRun₂⟩ := addQueryRule_total r₁ (ascii ['f', 'r', 'e', 'e'])
    (by omega) (by decide)
  obtain ⟨hDown₂, hTableN₂, hTrie₂, hLength₂⟩ := addQueryRule_rest hRun₂
  obtain ⟨r₃, hRun₃⟩ := addQueryRule_total r₂
    (ascii ['s', 'u', 'n', ' ', '#', ' ', 'p', 'e', 'i', 'y', 'u', 'a', 'n']) (by omega) (by decide)
  obtain ⟨hDown₃, hTableN₃, hTrie₃, hLength₃⟩ := addQueryRule_rest hRun₃
  refine ⟨r₃, ?_, ?_, ?_, ?_, by omega⟩
  · rw [initLoop, hRun₁, Option.bind_eq_bind, Option.bind_some, hRun₂]
    exact hRun₃
  · rw [hDown₃, hDown₂, hDown₁]
    rfl
  · rw [hTableN₃, hTableN₂, hTableN₁]
    rfl
  · rw [hTrie₃, hTrie₂, hTrie₁]
    rfl

end Shutter.Rules
