import Shutter.Rules.Loading

/-! What the calls of the loaders leave in the stores: the query rules and the rules of the trie
that are kept, and the bags of the urls and of the keywords. -/

namespace Shutter.Rules

open Shutter.Acsm Shutter.StringMatcher Shutter.RuleTrie Shutter.Library

/-! ### The operations of a call -/

/-- What a call does to the blocking rules, which are removed by their texts. -/
def LoaderCall.rules : LoaderCall → List (Op QueryExpression (List UInt8))
  | .addQueryRule query => (parseQuery query).toList.map .add
  | .delQueryRule query => [.remove query]
  | _ => []

/-- What a call does to the monitoring rules. -/
def LoaderCall.rulesN : LoaderCall → List (Op QueryExpression (List UInt8))
  | .addQueryRuleN query => (parseQuery query).toList.map .add
  | .delQueryRuleN query => [.remove query]
  | _ => []

/-- What a call does to the rules of the trie. -/
def LoaderCall.trieRules : LoaderCall → List (Op (List UInt8) (List UInt8))
  | .insertForUserid rule | .insertForResourceid rule => [.add rule]
  | .del rule => [.remove rule]
  | _ => []

/-- What a call does to the urls. -/
def LoaderCall.urls : LoaderCall → List (Op (List UInt8) (List UInt8))
  | .addurl url => [.add url]
  | .delurl url => [.remove url]
  | _ => []

/-- What a call does to the keywords of the down stream. -/
def LoaderCall.keywords : LoaderCall → List (Op (List UInt8) (List UInt8))
  | .addKey keyword => .add keyword :: (strtounicode keyword).toList.map .add
  | .delStr keyword => [.remove keyword]
  | _ => []

/-- The call inserts a rule into the trie. -/
def LoaderCall.inserts : LoaderCall → Bool
  | .insertForUserid _ | .insertForResourceid _ => true
  | _ => false

/-- The call takes a slot of the table of the blocking rules. -/
def LoaderCall.addsRule : LoaderCall → Bool
  | .addQueryRule _ => true
  | _ => false

/-- The call takes a slot of the table of the monitoring rules. -/
def LoaderCall.addsRuleN : LoaderCall → Bool
  | .addQueryRuleN _ => true
  | _ => false

/-- The string of the call is one that its function can process. -/
def LoaderCall.Readable : LoaderCall → Prop
  | .addQueryRule query | .addQueryRuleN query => (parseQuery query).isSome
  | .addKey keyword => escapedBytes keyword ≤ 1024
  | .insertForUserid rule | .insertForResourceid rule | .del rule =>
    rule.length < 256 ∧ Spelled rule
  | .delQueryRule _ | .delQueryRuleN _ | .delStr _ | .addurl _ | .delurl _ => True

/-- An addition to a table comes when it has a slot, and a deletion from a list when some string has
been added more often than deleted. -/
def LoaderCall.Finds (calls : List LoaderCall) : LoaderCall → Prop
  | .addQueryRule _ => calls.countP LoaderCall.addsRule < 10000
  | .addQueryRuleN _ => calls.countP LoaderCall.addsRuleN < 10000
  | .delStr _ => ∃ keyword, Surplus (calls.flatMap LoaderCall.keywords) keyword
  | .delurl _ => ∃ url, Surplus (calls.flatMap LoaderCall.urls) url
  | _ => True

/-- The trie has room for the rule that the call inserts. -/
def LoaderCall.Room (r : Stores) : LoaderCall → Prop
  | .insertForUserid rule => r.trie.Room r.trie.globalPatternIdForUserid rule
  | .insertForResourceid rule => r.trie.Room r.trie.globalPatternIdForResourceid rule
  | _ => True

/-- Each insertion of the run finds room in the trie. -/
def InsertsFit (calls : List LoaderCall) : Prop :=
  ∀ done call rest, calls = done ++ call :: rest → ∀ r,
    done.foldlM LoaderCall.run noRules = some r → call.Room r

/-! ### The stores -/

/-- The table holds the rules that are kept. -/
def QueryTable.Built (table : QueryTable) (ops : List (Op QueryExpression (List UInt8))) : Prop :=
  ∀ qe, some qe ∈ table ↔ Kept QueryExpression.fullText ops qe

/-- Both automata have the bag as their list. -/
structure UrlsBuilt (m : Buffers) (ops : List (Op (List UInt8) (List UInt8))) : Prop where
  active : m.a.acsmPatterns = bag ops
  spare : m.b.acsmPatterns = bag ops
  terminated : ∀ p ∈ bag ops, 0 ∉ p

/-- Both automata of the down stream have the bag as their list. -/
structure KeywordsBuilt (d : Down) (ops : List (Op (List UInt8) (List UInt8))) : Prop where
  active : d.m.acsmPatterns = bag ops
  spare : d.n.acsmPatterns = bag ops
  terminated : ∀ p ∈ bag ops, 0 ∉ p

/-- The trie has the rules that are kept. -/
structure TrieBuilt (t : Trie) (ops : List (Op (List UInt8) (List UInt8))) : Prop where
  standing : t.Standing
  has : ∀ rule, t.Has rule ↔ Kept id ops rule

section Tables

variable {table : QueryTable} {ops : List (Op QueryExpression (List UInt8))}

theorem QueryTable.built_nil : QueryTable.Built [] [] := by
  intro qe
  simp [not_kept_nil]

theorem QueryTable.Built.add (h : table.Built ops) (qe : QueryExpression) :
    QueryTable.Built (table ++ [some qe]) (ops ++ [.add qe]) := by
  intro qe'
  rw [kept_concat_add, ← h qe']
  simp [or_comm]

theorem QueryTable.Built.del (h : table.Built ops) (query : List UInt8) :
    (table.del query).Built (ops ++ [.remove query]) := by
  intro qe
  rw [QueryTable.mem_del, kept_concat_remove, h qe]

end Tables

section Lists

variable {ops : List (Op (List UInt8) (List UInt8))} {s : List UInt8}

theorem terminated_add (h : ∀ p ∈ bag ops, 0 ∉ p) (hs : 0 ∉ s) :
    ∀ p ∈ bag (ops ++ [.add s]), 0 ∉ p := by
  rw [bag_concat]
  exact List.forall_mem_cons.mpr ⟨hs, h⟩

theorem terminated_remove (h : ∀ p ∈ bag ops, 0 ∉ p) :
    ∀ p ∈ bag (ops ++ [.remove s]), 0 ∉ p := by
  rw [bag_concat]
  exact fun p hp => h p (List.mem_of_mem_erase hp)

/-- An update leaves both automata with the list that the spare one had. -/
theorem publish_lists (m : Buffers) : ∃ m', m.publish = some m' ∧
    m'.a.acsmPatterns = m.b.acsmPatterns ∧ m'.b.acsmPatterns = m.b.acsmPatterns := by
  obtain ⟨b, hCompile, hPatterns, -⟩ := acsmCompile_searches m.b
  exact ⟨⟨b, { m.a with acsmPatterns := m.b.acsmPatterns }⟩,
    by rw [Buffers.publish, hCompile]; rfl, hPatterns, rfl⟩

theorem UrlsBuilt.add {m : Buffers} (h : UrlsBuilt m ops) (hs : 0 ∉ s) :
    ∃ m', m.add s = some m' ∧ UrlsBuilt m' (ops ++ [.add s]) := by
  obtain ⟨m', hRun, hActive, hSpare⟩ := publish_lists ⟨m.a, acsmAddPattern m.b (cstr s)⟩
  have hList : (acsmAddPattern m.b (cstr s)).acsmPatterns = bag (ops ++ [.add s]) := by
    simp [acsmAddPattern, h.spare, cstr_eq hs, bag_concat, Op.run]
  exact ⟨m', hRun, hActive.trans hList, hSpare.trans hList, terminated_add h.terminated hs⟩

theorem UrlsBuilt.del {m : Buffers} (h : UrlsBuilt m ops) (hs : 0 ∉ s)
    (hNonempty : bag ops ≠ []) :
    ∃ m', m.del s = some m' ∧ UrlsBuilt m' (ops ++ [.remove s]) := by
  have hDel : acsmDelPattern m.b (cstr s) =
      some { m.b with acsmPatterns := bag (ops ++ [.remove s]) } := by
    rw [acsmDelPattern, h.spare, cstr_eq hs, bag_concat, Op.run]
    obtain ⟨p, ps, hList⟩ := List.exists_cons_of_ne_nil hNonempty
    rw [← unlink_eq_erase hs h.terminated, hList]
  obtain ⟨m', hRun, hActive, hSpare⟩ :=
    publish_lists ⟨m.a, { m.b with acsmPatterns := bag (ops ++ [.remove s]) }⟩
  exact ⟨m', by rw [Buffers.del, hDel]; exact hRun, hActive, hSpare,
    terminated_remove h.terminated⟩

theorem UrlsBuilt.del_none {m : Buffers} (h : UrlsBuilt m ops) (hEmpty : bag ops = []) :
    m.del s = none := by
  rw [Buffers.del, acsmDelPattern, h.spare, hEmpty]
  rfl

theorem KeywordsBuilt.add {d : Down} (h : KeywordsBuilt d ops) (hs : 0 ∉ s) :
    ∃ d', addStr d s = some d' ∧ KeywordsBuilt d' (ops ++ [.add s]) := by
  obtain ⟨d', hRun, hPublished⟩ := addStr_published h.spare hs
  have hList : s :: bag ops = bag (ops ++ [.add s]) := by rw [bag_concat, Op.run]
  exact ⟨d', hRun, hPublished.active.trans hList, hPublished.spare.trans hList,
    terminated_add h.terminated hs⟩

theorem KeywordsBuilt.del {d : Down} (h : KeywordsBuilt d ops) (hs : 0 ∉ s)
    (hNonempty : bag ops ≠ []) :
    ∃ d', delStr d s = some d' ∧ KeywordsBuilt d' (ops ++ [.remove s]) := by
  obtain ⟨d', hRun, hPublished⟩ := delStr_published h.spare hNonempty h.terminated hs
  have hList : (bag ops).erase s = bag (ops ++ [.remove s]) := by rw [bag_concat, Op.run]
  exact ⟨d', hRun, hPublished.active.trans hList, hPublished.spare.trans hList,
    terminated_remove h.terminated⟩

theorem KeywordsBuilt.del_none {d : Down} (h : KeywordsBuilt d ops) (hEmpty : bag ops = []) :
    delStr d s = none := by
  rw [delStr, acsmdelPattern, h.spare, hEmpty]
  rfl

theorem KeywordsBuilt.addKeyword {d : Down} (h : KeywordsBuilt d ops) (hs : 0 ∉ s) :
    ∃ d', Rules.addKeyword d s = some d' ∧
      KeywordsBuilt d' (ops ++ .add s :: (strtounicode s).toList.map .add) := by
  obtain ⟨d₁, hRun, h₁⟩ := h.add hs
  rw [Rules.addKeyword, hRun]
  cases hKey : strtounicode s with
  | none => exact ⟨d₁, rfl, h₁⟩
  | some key =>
    obtain ⟨d₂, hRun₂, h₂⟩ := h₁.add (zero_not_mem_strtounicode hs hKey)
    exact ⟨d₂, hRun₂, by simpa using h₂⟩

end Lists

section Tries

variable {t : Trie} {ops : List (Op (List UInt8) (List UInt8))} {rule : List UInt8}

theorem trieBuilt_init : TrieBuilt initTrieTree [] :=
  ⟨initTrieTree_standing, fun _ => iff_of_false not_has_init not_kept_nil⟩

theorem TrieBuilt.add {t' : Trie} (h : TrieBuilt t ops) (hStanding : t'.Standing)
    (hHas : ∀ other, t'.Has other ↔ other = rule ∨ t.Has other) :
    TrieBuilt t' (ops ++ [.add rule]) := by
  refine ⟨hStanding, fun other => ?_⟩
  rw [hHas, kept_concat_add, h.has]

theorem TrieBuilt.insertForUserid (h : TrieBuilt t ops) (hRule : Spelled rule)
    (hRoom : t.Room t.globalPatternIdForUserid rule) :
    ∃ t', RuleTrie.insertForUserid t rule = some t' ∧ TrieBuilt t' (ops ++ [.add rule]) := by
  obtain ⟨w, rfl⟩ := hRule.exists_word
  have hUserid := h.standing.ready.userid
  obtain ⟨root, hRoot, hNext⟩ := h.standing.insertPath (by omega) hRoom
  have hRun : RuleTrie.insertForUserid t (w.map i2c) = some ⟨root,
      t.globalPatternIdForUserid + 2, t.globalPatternIdForResourceid⟩ := by
    rw [RuleTrie.insertForUserid, hRoot]
    rfl
  obtain ⟨hStanding, hHas⟩ := hNext _ rfl (h.standing.ready.insertForUserid hRun)
  exact ⟨_, hRun, h.add hStanding hHas⟩

theorem TrieBuilt.insertForResourceid (h : TrieBuilt t ops) (hRule : Spelled rule)
    (hRoom : t.Room t.globalPatternIdForResourceid rule) :
    ∃ t', RuleTrie.insertForResourceid t rule = some t' ∧
      TrieBuilt t' (ops ++ [.add rule]) := by
  obtain ⟨w, rfl⟩ := hRule.exists_word
  have hResourceid := h.standing.ready.resourceid
  obtain ⟨root, hRoot, hNext⟩ := h.standing.insertPath (by omega) hRoom
  have hRun : RuleTrie.insertForResourceid t (w.map i2c) = some ⟨root,
      t.globalPatternIdForUserid, t.globalPatternIdForResourceid + 2⟩ := by
    rw [RuleTrie.insertForResourceid, hRoot]
    rfl
  obtain ⟨hStanding, hHas⟩ := hNext _ rfl (h.standing.ready.insertForResourceid hRun)
  exact ⟨_, hRun, h.add hStanding hHas⟩

theorem TrieBuilt.del (h : TrieBuilt t ops) (hRule : Spelled rule) :
    ∃ t', RuleTrie.del t rule = some t' ∧ TrieBuilt t' (ops ++ [.remove rule]) := by
  obtain ⟨w, rfl⟩ := hRule.exists_word
  obtain ⟨t', hRun, hStanding, hHas⟩ := h.standing.del w
  refine ⟨t', hRun, hStanding, fun other => ?_⟩
  rw [hHas, kept_concat_remove, h.has]
  rfl

end Tries

/-! ### Runs -/

/-- The stores are those that the calls build from nothing. -/
structure Built (calls : List LoaderCall) (r : Stores) : Prop where
  table : r.table.Built (calls.flatMap LoaderCall.rules)
  tableN : r.tableN.Built (calls.flatMap LoaderCall.rulesN)
  slots : r.table.length = calls.countP LoaderCall.addsRule
  slotsN : r.tableN.length = calls.countP LoaderCall.addsRuleN
  trie : TrieBuilt r.trie (calls.flatMap LoaderCall.trieRules)
  urls : UrlsBuilt r.automata.url (calls.flatMap LoaderCall.urls)
  keywords : KeywordsBuilt r.down (calls.flatMap LoaderCall.keywords)

theorem built_noRules : Built [] noRules where
  table := QueryTable.built_nil
  tableN := QueryTable.built_nil
  slots := rfl
  slotsN := rfl
  trie := trieBuilt_init
  urls := ⟨rfl, rfl, by simp [bag]⟩
  keywords := ⟨rfl, rfl, by simp [bag]⟩

theorem callTrie_eq {call : Trie → List UInt8 → Option Trie} {r : Stores} {rule : List UInt8}
    {t : Trie} (hFit : rule.length < 256) (hRun : call r.trie rule = some t) :
    callTrie call r rule = some { r with trie := t } := by
  simp [callTrie, fit256, hFit, Stores.onTrie, hRun]

section Calls

variable {calls : List LoaderCall} {call : LoaderCall} {r r' : Stores}

theorem Built.of_parts (r' : Stores)
    (hTable : r'.table.Built (calls.flatMap LoaderCall.rules ++ call.rules))
    (hTableN : r'.tableN.Built (calls.flatMap LoaderCall.rulesN ++ call.rulesN))
    (hSlots : r'.table.length =
      calls.countP LoaderCall.addsRule + (if call.addsRule then 1 else 0))
    (hSlotsN : r'.tableN.length =
      calls.countP LoaderCall.addsRuleN + (if call.addsRuleN then 1 else 0))
    (hTrie : TrieBuilt r'.trie (calls.flatMap LoaderCall.trieRules ++ call.trieRules))
    (hUrls : UrlsBuilt r'.automata.url (calls.flatMap LoaderCall.urls ++ call.urls))
    (hKeywords : KeywordsBuilt r'.down (calls.flatMap LoaderCall.keywords ++ call.keywords)) :
    Built (calls ++ [call]) r' where
  table := by simpa using hTable
  tableN := by simpa using hTableN
  slots := by simpa [List.countP_append, List.countP_singleton] using hSlots
  slotsN := by simpa [List.countP_append, List.countP_singleton] using hSlotsN
  trie := by simpa using hTrie
  urls := by simpa using hUrls
  keywords := by simpa using hKeywords

/-- A call that ends leaves the stores that it builds. -/
theorem Built.concat (h : Built calls r) (hCall : 0 ∉ call.string) (hReadable : call.Readable)
    (hFound : call.Finds calls) (hRoom : call.Room r) :
    ∃ r', call.run r = some r' ∧ Built (calls ++ [call]) r' := by
  obtain ⟨hTable, hTableN, hSlots, hSlotsN, hTrie, hUrls, hKeywords⟩ := h
  have hBuilt := @Built.of_parts calls call
  cases call <;> simp only [LoaderCall.rules, LoaderCall.rulesN, LoaderCall.addsRule,
    LoaderCall.addsRuleN, LoaderCall.trieRules, LoaderCall.urls, LoaderCall.keywords,
    List.append_nil, if_true, if_false, Bool.false_eq_true, Nat.add_zero] at hBuilt
  case addQueryRule query =>
    obtain ⟨qe, hQuery⟩ := Option.isSome_iff_exists.mp hReadable
    obtain ⟨r', hRun⟩ := addQueryRule_total r query (hSlots ▸ hFound) hReadable
    obtain ⟨kw, -, rfl⟩ := addQueryRule_eq hQuery hRun
    rw [hQuery] at hBuilt
    exact ⟨_, hRun, hBuilt _ (hTable.add qe) hTableN
      (List.length_append.trans (by rw [hSlots]; rfl))
      hSlotsN hTrie hUrls hKeywords⟩
  case addQueryRuleN query =>
    obtain ⟨qe, hQuery⟩ := Option.isSome_iff_exists.mp hReadable
    obtain ⟨r', hRun⟩ := addQueryRuleN_total r query (hSlotsN ▸ hFound) hReadable
    obtain ⟨kwN, -, rfl⟩ := addQueryRuleN_eq hQuery hRun
    rw [hQuery] at hBuilt
    exact ⟨_, hRun, hBuilt _ hTable (hTableN.add qe) hSlots
      (List.length_append.trans (by rw [hSlotsN]; rfl)) hTrie hUrls hKeywords⟩
  case delQueryRule query =>
    exact ⟨_, rfl, hBuilt _ (hTable.del query) hTableN (List.length_map _ |>.trans hSlots)
      hSlotsN hTrie hUrls hKeywords⟩
  case delQueryRuleN query =>
    exact ⟨_, rfl, hBuilt _ hTable (hTableN.del query) hSlots
      (List.length_map _ |>.trans hSlotsN) hTrie hUrls hKeywords⟩
  case addKey keyword =>
    have hFits : escapedBytes keyword ≤ 1024 := hReadable
    obtain ⟨d, hRun, hAdded⟩ := hKeywords.addKeyword (s := keyword) hCall
    refine ⟨{ r with down := d }, ?_, hBuilt _ hTable hTableN hSlots hSlotsN hTrie hUrls hAdded⟩
    rw [LoaderCall.run, addKey, if_pos hFits, Stores.onDown_eq hRun]
  case delStr keyword =>
    obtain ⟨d, hRun, hDeleted⟩ := hKeywords.del (s := keyword) hCall (bag_ne_nil.mpr hFound)
    refine ⟨{ r with down := d }, ?_, hBuilt _ hTable hTableN hSlots hSlotsN hTrie
      hUrls hDeleted⟩
    rw [LoaderCall.run, Stores.onDown_eq hRun]
  case insertForUserid rule =>
    obtain ⟨t, hRun, hInserted⟩ := hTrie.insertForUserid hReadable.2 hRoom
    exact ⟨{ r with trie := t }, callTrie_eq hReadable.1 hRun,
      hBuilt _ hTable hTableN hSlots hSlotsN hInserted hUrls hKeywords⟩
  case insertForResourceid rule =>
    obtain ⟨t, hRun, hInserted⟩ := hTrie.insertForResourceid hReadable.2 hRoom
    exact ⟨{ r with trie := t }, callTrie_eq hReadable.1 hRun,
      hBuilt _ hTable hTableN hSlots hSlotsN hInserted hUrls hKeywords⟩
  case del rule =>
    obtain ⟨t, hRun, hDeleted⟩ := hTrie.del hReadable.2
    exact ⟨{ r with trie := t }, callTrie_eq hReadable.1 hRun,
      hBuilt _ hTable hTableN hSlots hSlotsN hDeleted hUrls hKeywords⟩
  case addurl url =>
    obtain ⟨m, hRun, hAdded⟩ := hUrls.add (s := url) hCall
    refine ⟨{ r with automata := { r.automata with url := m } }, ?_,
      hBuilt _ hTable hTableN hSlots hSlotsN hTrie hAdded hKeywords⟩
    simp [LoaderCall.run, Stores.onAutomata, StringMatcher.addurl, hRun]
  case delurl url =>
    obtain ⟨m, hRun, hDeleted⟩ := hUrls.del (s := url) hCall (bag_ne_nil.mpr hFound)
    refine ⟨{ r with automata := { r.automata with url := m } }, ?_,
      hBuilt _ hTable hTableN hSlots hSlotsN hTrie hDeleted hKeywords⟩
    simp [LoaderCall.run, Stores.onAutomata, StringMatcher.delurl, hRun]

theorem Built.run_none (h : Built calls r) (hFound : ¬call.Finds calls) : call.run r = none := by
  cases call with
  | addQueryRule query =>
    have hFull : ¬r.table.length < 10000 := h.slots.symm ▸ hFound
    cases hQuery : parseQuery query with
    | none => exact addQueryRule_unparsed r hQuery
    | some qe => rw [LoaderCall.run, addQueryRule_parsed r hQuery, if_neg hFull]
  | addQueryRuleN query =>
    have hFull : ¬r.tableN.length < 10000 := h.slotsN.symm ▸ hFound
    cases hQuery : parseQuery query with
    | none => exact addQueryRuleN_unparsed r hQuery
    | some qe => rw [LoaderCall.run, addQueryRuleN_parsed r hQuery, if_neg hFull]
  | delStr keyword =>
    have hEmpty := not_not.mp (mt bag_ne_nil.mp hFound)
    simp [LoaderCall.run, Stores.onDown, h.keywords.del_none hEmpty]
  | delurl url =>
    have hEmpty := not_not.mp (mt bag_ne_nil.mp hFound)
    simp [LoaderCall.run, Stores.onAutomata, StringMatcher.delurl, h.urls.del_none hEmpty]
  | delQueryRule | delQueryRuleN | addKey | insertForUserid | insertForResourceid | del | addurl =>
    exact absurd trivial hFound

/-- The calls of a list end exactly when each finds what it needs, and then they leave the stores
that they build. -/
theorem foldlM_built (hCalls : ∀ call ∈ calls, 0 ∉ call.string ∧ call.Readable)
    (hFit : InsertsFit calls) :
    (∀ r, calls.foldlM LoaderCall.run noRules = some r → Built calls r) ∧
      ((∃ r, calls.foldlM LoaderCall.run noRules = some r) ↔
        ∀ done call rest, calls = done ++ call :: rest → call.Finds done) := by
  let P := fun done r => done.foldlM LoaderCall.run noRules = some r ∧ Built done r
  have hStep : ∀ done call rest, calls = done ++ call :: rest → ∀ r, P done r →
    call.Finds done →
      ∃ r', call.run r = some r' ∧ P (done ++ [call]) r' := by
    rintro done call rest hSplit r ⟨hRun, hBuilt⟩ hFound
    obtain ⟨hString, hReadable⟩ := hCalls call (by simp [hSplit])
    obtain ⟨r', hNext, hBuilt'⟩ :=
      hBuilt.concat hString hReadable hFound (hFit done call rest hSplit r hRun)
    refine ⟨r', hNext, ?_, hBuilt'⟩
    rw [List.foldlM_append, hRun]
    simpa using hNext
  have hEnds := foldlM_iff_allowed LoaderCall.run P (fun done call => call.Finds done) calls
    ⟨rfl, built_noRules⟩ hStep fun done call r h hNot => h.2.run_none hNot
  refine ⟨fun r hRun => ?_, hEnds⟩
  obtain ⟨r', hRun', -, hBuilt⟩ := foldlM_invariant LoaderCall.run P calls
    ⟨rfl, built_noRules⟩
    fun done call rest hSplit r' h =>
      hStep done call rest hSplit r' h (hEnds.mp ⟨r, hRun⟩ done call rest hSplit)
  obtain rfl := Option.some.inj (hRun.symm.trans hRun')
  exact hBuilt

/-- Only the calls on the trie change it. -/
theorem LoaderCall.run_trie (hTrie : call.trieRules = []) (hRun : call.run r = some r') :
    r'.trie = r.trie := by
  cases call with
  | addQueryRule query => exact (addQueryRule_rest hRun).2.2.1
  | addQueryRuleN query => exact (addQueryRuleN_rest hRun).2.2.1
  | delQueryRule query | delQueryRuleN query =>
    obtain rfl := Option.some.inj hRun
    rfl
  | addKey keyword =>
    obtain ⟨-, hDown⟩ := Option.ite_none_right_eq_some.mp hRun
    obtain ⟨d, -, hRes⟩ := Option.bind_eq_some_iff.mp hDown
    obtain rfl := Option.some.inj hRes
    rfl
  | delStr keyword | addurl url | delurl url =>
    obtain ⟨d, -, hRes⟩ := Option.bind_eq_some_iff.mp hRun
    obtain rfl := Option.some.inj hRes
    rfl
  | insertForUserid rule | insertForResourceid rule | del rule => cases hTrie

theorem callTrie_some {insert : Trie → List UInt8 → Option Trie} {rule : List UInt8}
    (hRun : callTrie insert r rule = some r') : insert r.trie rule = some r'.trie := by
  obtain ⟨rule', hFit, hTrie⟩ := Option.bind_eq_some_iff.mp hRun
  obtain ⟨-, hRule⟩ := Option.ite_none_right_eq_some.mp hFit
  obtain rfl := Option.some.inj hRule
  obtain ⟨t, hInsert, hRes⟩ := Option.bind_eq_some_iff.mp hTrie
  obtain rfl := Option.some.inj hRes
  exact hInsert

/-- The number of insertions bounds the counts of the trie. -/
theorem LoaderCall.run_few (hFew : r.trie.Few (calls.countP LoaderCall.inserts))
    (hBound : (calls ++ [call]).countP LoaderCall.inserts ≤ 32767) (hRun : call.run r = some r') :
    r'.trie.Few ((calls ++ [call]).countP LoaderCall.inserts) := by
  rw [List.countP_append, List.countP_singleton] at hBound ⊢
  cases call with
  | insertForUserid rule => exact hFew.insertForUserid hBound (callTrie_some hRun)
  | insertForResourceid rule => exact hFew.insertForResourceid hBound (callTrie_some hRun)
  | del rule => exact hFew.del (callTrie_some hRun)
  | addQueryRule | addQueryRuleN | delQueryRule | delQueryRuleN | addKey | delStr | addurl
  | delurl =>
    rw [LoaderCall.run_trie rfl hRun]
    exact hFew

/-- At most 32767 insertions fit. -/
theorem insertsFit_of_few (h : calls.countP LoaderCall.inserts ≤ 32767) : InsertsFit calls := by
  rintro done call rest rfl r hRun
  rw [List.countP_append] at h
  have hFew : done.countP LoaderCall.inserts ≤ 32767 →
      r.trie.Few (done.countP LoaderCall.inserts) := by
    apply foldlM_kept LoaderCall.run (fun done r => done.countP LoaderCall.inserts ≤ 32767 →
      r.trie.Few (done.countP LoaderCall.inserts)) done
        (fun _ => show noRules.trie.Few 0 from initTrieTree_few) hRun
    intro done call _ r r' ih hNext hBound
    have hDone : done.countP LoaderCall.inserts ≤ 32767 := by
      rw [List.countP_append] at hBound
      omega
    exact LoaderCall.run_few (ih hDone) hBound hNext
  cases call with
  | insertForUserid rule => exact ((hFew (by omega)).room (by omega) rule).1
  | insertForResourceid rule => exact ((hFew (by omega)).room (by omega) rule).2
  | addQueryRule | addQueryRuleN | delQueryRule | delQueryRuleN | addKey | delStr | del | addurl
  | delurl => trivial

end Calls

end Shutter.Rules
