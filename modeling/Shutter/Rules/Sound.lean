import Shutter.Rules.Decision
import Shutter.RuleTrie.Undo

/-! What every run of rule messages keeps.  The words of a live query rule are in the list that the
active automaton is compiled from, and so are the urls and the keywords of the down stream; the trie
has a root and identifiers that `del` can tell from none. -/

namespace Shutter.Rules

open Shutter.Acsm Shutter.StringMatcher Shutter.RuleTrie Shutter.Library

/-! ### Words of a query -/

theorem not_mem_trim {piece : List UInt8} (h : 0 ∉ piece) : 0 ∉ trim piece := fun hMem =>
  h ((List.dropWhile_sublist _).subset ((List.takeWhile_sublist _).subset hMem))

theorem parseLoop_words {pending rest : List UInt8} {qe : QueryExpression}
    (hBytes : 0 ∉ pending ++ rest) (h : ∀ w ∈ qe.query, 0 ∉ w) :
    ∀ w ∈ (parseLoop pending rest qe).query, 0 ∉ w := by
  have hAdd : ∀ (qe : QueryExpression) (piece : List UInt8), (∀ w ∈ qe.query, 0 ∉ w) →
      0 ∉ piece → ∀ w ∈ (qe.addWord piece).query, 0 ∉ w := by
    intro qe piece hWords hPiece w hw
    rcases List.mem_append.mp hw with hw | hw
    · exact hWords w hw
    · exact List.mem_singleton.mp hw ▸ not_mem_trim hPiece
  induction rest generalizing pending qe with
  | nil => exact h
  | cons c rest ih =>
    unfold parseLoop
    split
    · exact hAdd qe _ h hBytes
    · simp only [List.mem_append, List.mem_cons, not_or] at hBytes
      split
      · exact ih (by simpa using hBytes.2.2) (hAdd _ pending h hBytes.1)
      · exact ih (by simp [hBytes.1, hBytes.2.1, hBytes.2.2]) h

theorem parseQuery_words {query : List UInt8} {qe : QueryExpression} (hBytes : 0 ∉ query)
    (h : parseQuery query = some qe) : ∀ w ∈ qe.query, 0 ∉ w := by
  simp only [parseQuery, Option.ite_none_right_eq_some] at h
  obtain ⟨-, h⟩ := h
  rw [← Option.some.inj h]
  exact parseLoop_words (by simpa using hBytes) (by simp)

theorem parseQuery_fullText {query : List UInt8} {qe : QueryExpression}
    (hLength : query.length < 256) (h : parseQuery query = some qe) : qe.fullText = query := by
  simp only [parseQuery, Option.ite_none_right_eq_some] at h
  obtain ⟨-, h⟩ := h
  rw [← Option.some.inj h, parseLoop_fullText]
  by_cases hEmpty : query = []
  · rw [hEmpty]
    rfl
  · exact if_pos ⟨List.length_pos_iff.mpr hEmpty, by omega⟩

/-! ### A table and its automata -/

/-- The active automaton is compiled from the list. -/
def CompiledFrom (m : Buffers) (ps : List Pattern) : Prop :=
  m.b.acsmPatterns = ps ∧ ∃ b, compile ps = some b ∧ m.a.acsmStateTable = some b.toStateTable

/-- The words of the live rules are in the list that the active automaton is compiled from. -/
def Words (m : Buffers) (table : QueryTable) : Prop :=
  ∀ qe, some qe ∈ table → ∀ w ∈ qe.query,
    CompiledFrom m m.b.acsmPatterns ∧ w ∈ m.b.acsmPatterns

theorem CompiledFrom.searches {m : Buffers} {ps : List Pattern} (h : CompiledFrom m ps) :
    m.a.Searches ps := by
  obtain ⟨-, b, hCompile, hTable⟩ := h
  obtain ⟨b', word, hCompile', hCompiled⟩ := compile_compiled ps
  obtain rfl := Option.some.inj (hCompile.symm.trans hCompile')
  exact ⟨b, word, hTable, hCompiled⟩

/-- The keywords that the active automaton finds: the empty one with a byte that begins no word of
the list. -/
theorem CompiledFrom.keywords {m : Buffers} {ps : List Pattern} (h : CompiledFrom m ps)
    (text : List UInt8) : ∃ kws, acsmSearchKw m.a text = some kws ∧
      (∀ w, w ≠ [] → (w ∈ kws ↔ w ∈ ps ∧ w <:+: text)) ∧
      ([] ∈ kws ↔ [] ∈ ps ∧ ∃ c ∈ text, ¬PrefixOfSome ps [c]) := by
  obtain ⟨kws, hKws, hMem⟩ := acsmSearchKw_spec h.searches text
  obtain ⟨-, b, hCompile, hTable⟩ := h
  obtain ⟨kws', hKws', -, -, hEmpty⟩ := acsmSearchKw_lists hCompile hTable text
  obtain rfl := Option.some.inj (hKws.symm.trans hKws')
  exact ⟨kws, hKws, hMem, hEmpty⟩

theorem publish_compiledFrom {m m' : Buffers} (h : m.publish = some m') :
    CompiledFrom m' m.b.acsmPatterns := by
  obtain ⟨b, hCompile, hRes⟩ := Option.bind_eq_some_iff.mp h
  obtain rfl := Option.some.inj hRes
  obtain ⟨b, hBuild, hRes⟩ := Option.bind_eq_some_iff.mp hCompile
  obtain rfl := Option.some.inj hRes
  exact ⟨rfl, b, hBuild, rfl⟩

theorem add_listed {m m' : Buffers} {s : List UInt8} (h : m.add s = some m') :
    CompiledFrom m' m'.b.acsmPatterns ∧ m'.b.acsmPatterns = cstr s :: m.b.acsmPatterns := by
  have hCompiled := publish_compiledFrom h
  replace hCompiled : CompiledFrom m' (cstr s :: m.b.acsmPatterns) := hCompiled
  exact ⟨hCompiled.1.symm ▸ hCompiled, hCompiled.1⟩

/-- The words join the list that the active automaton is compiled from. -/
theorem foldlM_add_listed {ws : List (List UInt8)} {m m' : Buffers}
    (h : ws.foldlM Buffers.add m = some m') :
    (ws = [] ∧ m' = m ∨ CompiledFrom m' m'.b.acsmPatterns) ∧
      m'.b.acsmPatterns = (ws.map cstr).reverse ++ m.b.acsmPatterns := by
  induction ws generalizing m with
  | nil =>
    obtain rfl : m = m' := by simpa using h
    exact ⟨Or.inl ⟨rfl, rfl⟩, rfl⟩
  | cons w ws ih =>
    rw [List.foldlM_cons] at h
    obtain ⟨m₁, hAdd, hRest⟩ := Option.bind_eq_some_iff.mp h
    obtain ⟨hCompiled₁, hList₁⟩ := add_listed hAdd
    obtain ⟨hCompiled, hList⟩ := ih hRest
    refine ⟨Or.inr ?_, by rw [hList, hList₁]; simp⟩
    rcases hCompiled with ⟨-, rfl⟩ | hCompiled
    · exact hCompiled₁
    · exact hCompiled

section Table

variable {m m' : Buffers} {table : QueryTable}

theorem Words.grow {ws : List (List UInt8)} (h : Words m table)
    (hRun : ws.foldlM Buffers.add m = some m') : Words m' table := by
  intro qe hqe w hw
  obtain ⟨hCompiled, hList⟩ := foldlM_add_listed hRun
  obtain ⟨hCompiled₀, hListed⟩ := h qe hqe w hw
  rcases hCompiled with ⟨-, rfl⟩ | hCompiled
  · exact ⟨hCompiled₀, hListed⟩
  · exact ⟨hCompiled, hList ▸ List.mem_append_right _ hListed⟩

theorem Words.add {qe : QueryExpression} (h : Words m table) (hWords : ∀ w ∈ qe.query, 0 ∉ w)
    (hRun : qe.query.foldlM Buffers.add m = some m') : Words m' (table ++ [some qe]) := by
  intro qe' hqe' w hw
  rcases List.mem_append.mp hqe' with hqe' | hqe'
  · exact h.grow hRun qe' hqe' w hw
  · obtain rfl : qe' = qe := by simpa using hqe'
    obtain ⟨hCompiled, hList⟩ := foldlM_add_listed hRun
    refine ⟨hCompiled.resolve_left fun hNil => by simp [hNil.1] at hw, ?_⟩
    rw [hList, List.mem_append, List.mem_reverse]
    exact Or.inl (List.mem_map.mpr ⟨w, hw, cstr_eq (hWords w hw)⟩)

theorem Words.del (h : Words m table) (query : List UInt8) : Words m (table.del query) :=
  fun qe hqe => h qe (QueryTable.mem_del.mp hqe).1

/-- A rule finds its words as before in an automaton with more words, and an empty word too if the
words begin with the same bytes. -/
theorem Words.matches_congr (h : Words m table) (h' : Words m' table) {qe : QueryExpression}
    (hqe : some qe ∈ table) (hBlank : [] ∈ qe.query → ∀ c,
      (PrefixOfSome m.b.acsmPatterns [c] ↔ PrefixOfSome m'.b.acsmPatterns [c]))
    (text : List UInt8) :
    qe.matches (acsmSearch m.a text) (acsmSearchKw m.a text) =
      qe.matches (acsmSearch m'.a text) (acsmSearchKw m'.a text) := by
  by_cases hNil : qe.query = []
  · have hNone : ∀ found keywords, qe.matches found keywords = none := by
      intro found keywords
      cases found with
      | none => rfl
      | some ra =>
        cases keywords with
        | none => rfl
        | some kw => simp [QueryExpression.matches, populateTf, hNil, evaluate]
    rw [hNone, hNone]
  · obtain ⟨w₀, hw₀⟩ := List.exists_mem_of_ne_nil _ hNil
    obtain ⟨kws, hKws, hMem, hEmpty⟩ := (h qe hqe w₀ hw₀).1.keywords text
    obtain ⟨kws', hKws', hMem', hEmpty'⟩ := (h' qe hqe w₀ hw₀).1.keywords text
    have hTf : populateTf qe kws = populateTf qe kws' := by
      refine List.map_congr_left fun w hw => decide_eq_decide.mpr ?_
      have hListed := iff_of_true (h qe hqe w hw).2 (h' qe hqe w hw).2
      by_cases hw' : w = []
      · subst hw'
        rw [hEmpty, hEmpty', hListed]
        simp only [hBlank hw]
      · rw [hMem w hw', hMem' w hw', hListed]
    simp only [QueryExpression.matches, hKws, hKws', acsmSearch_of_kw hKws, acsmSearch_of_kw hKws',
      Option.bind_eq_bind, Option.bind_some, List.take_length, hTf]

end Table

/-! ### The urls and the keywords of the down stream -/

/-- The list has C strings only, and the active automaton is compiled from it, once there has been
an update. -/
structure Urls (m : Buffers) : Prop where
  keyword : ∀ p ∈ m.b.acsmPatterns, 0 ∉ p
  compiled : CompiledFrom m m.b.acsmPatterns ∨ m.a.acsmStateTable = none

theorem Urls.add {m m' : Buffers} {s : List UInt8} (h : Urls m) (hs : 0 ∉ s)
    (hRun : m.add s = some m') : Urls m' ∧ CompiledFrom m' (s :: m.b.acsmPatterns) := by
  have hCompiled := publish_compiledFrom hRun
  replace hCompiled : CompiledFrom m' (cstr s :: m.b.acsmPatterns) := hCompiled
  rw [cstr_eq hs] at hCompiled
  refine ⟨⟨?_, Or.inl (hCompiled.1 ▸ hCompiled)⟩, hCompiled⟩
  rw [hCompiled.1]
  exact List.forall_mem_cons.mpr ⟨hs, h.keyword⟩

theorem Urls.del {m m' : Buffers} {s : List UInt8} (h : Urls m) (hs : 0 ∉ s)
    (hRun : m.del s = some m') : Urls m' ∧ CompiledFrom m' (m.b.acsmPatterns.erase s) := by
  obtain ⟨b, hDel, hPublish⟩ := Option.bind_eq_some_iff.mp hRun
  have hCompiled := publish_compiledFrom hPublish
  have hList : b.acsmPatterns = m.b.acsmPatterns.erase s := by
    unfold acsmDelPattern at hDel
    split at hDel
    · cases hDel
    · obtain rfl := Option.some.inj hDel
      rw [← unlink_eq_erase hs h.keyword, cstr_eq hs]
  rw [hList] at hCompiled
  refine ⟨⟨?_, Or.inl (hCompiled.1 ▸ hCompiled)⟩, hCompiled⟩
  rw [hCompiled.1]
  exact fun p hp => h.keyword p (List.mem_of_mem_erase hp)

/-- The list of `M` and `N` has C strings only, and `M` is compiled from it, once there has been an
update. -/
structure Down.Sound (d : Down) : Prop where
  keyword : ∀ p ∈ d.n.acsmPatterns, 0 ∉ p
  compiled : d.Published d.n.acsmPatterns ∨ d.m.acsmStateTable = none ∧ d.n.acsmPatterns = []

section Keywords

variable {d d' : Down} {s : List UInt8}

theorem Down.Published.sound {ps : List Pattern} (h : d.Published ps)
    (hKeyword : ∀ p ∈ ps, 0 ∉ p) :
    d.Sound :=
  ⟨h.spare.symm ▸ hKeyword, Or.inl (h.spare.symm ▸ h)⟩

theorem Down.Sound.addKeyword (h : d.Sound) (hs : 0 ∉ s) :
    ∃ d', Rules.addKeyword d s = some d' ∧ d'.Sound := by
  obtain ⟨d', hRun, hPublished⟩ := addKeyword_published (d := d) rfl hs
  refine ⟨d', hRun, hPublished.sound fun p hp => ?_⟩
  rcases List.mem_append.mp hp with hp | hp
  · exact zero_not_mem_strtounicode hs (Option.mem_toList.mp hp)
  · rcases List.mem_cons.mp hp with rfl | hp
    · exact hs
    · exact h.keyword p hp

theorem Down.Sound.delStr (h : d.Sound) (hs : 0 ∉ s) (hRun : Rules.delStr d s = some d') :
    d'.Sound := by
  have hNonempty : d.n.acsmPatterns ≠ [] := fun hNil => by
    rw [Rules.delStr, acsmdelPattern, hNil] at hRun
    cases hRun
  obtain ⟨d'', hRun', hPublished⟩ := delStr_published (d := d) rfl hNonempty h.keyword hs
  obtain rfl := Option.some.inj (hRun.symm.trans hRun')
  exact hPublished.sound fun p hp => h.keyword p (List.mem_of_mem_erase hp)

end Keywords

/-! ### Stores -/

/-- The invariant of the stores. -/
structure Stores.Sound (r : Stores) : Prop where
  words : Words r.automata.kw r.table
  wordsN : Words r.automata.kwN r.tableN
  url : Urls r.automata.url
  trie : r.trie.Ready
  down : r.down.Sound

theorem noRules_sound : noRules.Sound where
  words := fun qe hqe => by simp [noRules] at hqe
  wordsN := fun qe hqe => by simp [noRules] at hqe
  url := ⟨by simp [noRules, initAc, acsmNew], Or.inr rfl⟩
  trie := initTrieTree_ready
  down := ⟨by simp [noRules, downAc, acsmnew, acsmNew], Or.inr ⟨rfl, rfl⟩⟩

section Steps

variable {r r' : Stores} {query : List UInt8}

theorem Stores.Sound.addQueryRule (h : r.Sound) (hBytes : 0 ∉ query)
    (hRun : Rules.addQueryRule r query = some r') : r'.Sound := by
  cases hQuery : parseQuery query with
  | none => simp [addQueryRule_unparsed r hQuery] at hRun
  | some qe =>
    obtain ⟨kw, hWords, rfl⟩ := addQueryRule_eq hQuery hRun
    exact ⟨h.words.add (parseQuery_words hBytes hQuery) hWords, h.wordsN, h.url, h.trie, h.down⟩

theorem Stores.Sound.addQueryRuleN (h : r.Sound) (hBytes : 0 ∉ query)
    (hRun : Rules.addQueryRuleN r query = some r') : r'.Sound := by
  cases hQuery : parseQuery query with
  | none => simp [addQueryRuleN_unparsed r hQuery] at hRun
  | some qe =>
    obtain ⟨kwN, hWords, rfl⟩ := addQueryRuleN_eq hQuery hRun
    exact ⟨h.words, h.wordsN.add (parseQuery_words hBytes hQuery) hWords, h.url, h.trie, h.down⟩

theorem Stores.Sound.onDown (h : r.Sound) {call : Down → Option Down}
    (hCall : ∀ d, call r.down = some d → d.Sound) (hRun : r.onDown call = some r') :
    r'.Sound := by
  obtain ⟨d, hDown, hRes⟩ := Option.bind_eq_some_iff.mp hRun
  obtain rfl := Option.some.inj hRes
  exact ⟨h.words, h.wordsN, h.url, h.trie, hCall d hDown⟩

theorem Stores.Sound.addKeyword (h : r.Sound) {s : List UInt8} (hs : 0 ∉ s)
    (hRun : r.onDown (Rules.addKeyword · s) = some r') : r'.Sound := by
  refine h.onDown (fun d hd => ?_) hRun
  obtain ⟨d', hAdd, hSound⟩ := h.down.addKeyword hs
  exact Option.some.inj (hAdd.symm.trans hd) ▸ hSound

theorem Stores.Sound.processContent (h : r.Sound) {f : ContentFields} (hBytes : 0 ∉ f.rule1)
    (hRun : Rules.processContent r f = some r') : r'.Sound := by
  unfold Rules.processContent at hRun
  split at hRun
  · split at hRun
    · split at hRun
      · exact h.addQueryRule hBytes hRun
      · split at hRun
        · exact h.addKeyword hBytes hRun
        · exact Option.some.inj hRun ▸ h
    · split at hRun
      · have hDel : (delQueryRule r f.rule1).Sound :=
          ⟨h.words.del f.rule1, h.wordsN, h.url, h.trie, h.down⟩
        exact hDel.onDown (fun d hd => hDel.down.delStr hBytes hd) hRun
      · exact Option.some.inj hRun ▸ h
  · split at hRun
    · split at hRun
      · obtain ⟨r₁, hAdd, hRest⟩ := Option.bind_eq_some_iff.mp hRun
        have h₁ := h.addQueryRuleN hBytes hAdd
        split at hRest
        · exact h₁.addKeyword hBytes hRest
        · exact Option.some.inj hRest ▸ h₁
      · split at hRun
        · exact Option.some.inj hRun ▸ ⟨h.words, h.wordsN.del f.rule1, h.url, h.trie, h.down⟩
        · exact Option.some.inj hRun ▸ h
    · exact Option.some.inj hRun ▸ h

theorem Stores.Sound.onTrie (h : r.Sound) {call : Trie → Option Trie}
    (hCall : ∀ t, call r.trie = some t → t.Ready) (hRun : r.onTrie call = some r') :
    r'.Sound := by
  obtain ⟨t, hTrie, hRes⟩ := Option.bind_eq_some_iff.mp hRun
  obtain rfl := Option.some.inj hRes
  exact ⟨h.words, h.wordsN, h.url, hCall t hTrie, h.down⟩

theorem Stores.Sound.processTrie (h : r.Sound) {state : Option UInt8}
    {insert : Trie → List UInt8 → Option Trie} {text : List UInt8}
    (hInsert : ∀ pattern t, insert r.trie pattern = some t → t.Ready)
    (hRun : Rules.processTrie r state insert text = some r') : r'.Sound := by
  obtain ⟨pattern, -, hRest⟩ := Option.bind_eq_some_iff.mp hRun
  split at hRest
  · exact h.onTrie (hInsert pattern) hRest
  · split at hRest
    · exact h.onTrie (fun t ht => h.trie.del ht) hRest
    · exact Option.some.inj hRest ▸ h

theorem Stores.Sound.processUrl (h : r.Sound) {f : UrlFields} (hBytes : 0 ∉ f.rule1)
    (hRun : Rules.processUrl r f = some r') : r'.Sound := by
  unfold Rules.processUrl at hRun
  split at hRun
  · obtain ⟨g, hCall, hRes⟩ := Option.bind_eq_some_iff.mp hRun
    obtain ⟨url, hAdd, hUrl⟩ := Option.bind_eq_some_iff.mp hCall
    obtain rfl := Option.some.inj hUrl
    obtain rfl := Option.some.inj hRes
    exact ⟨h.words, h.wordsN, (h.url.add hBytes hAdd).1, h.trie, h.down⟩
  · split at hRun
    · obtain ⟨g, hCall, hRes⟩ := Option.bind_eq_some_iff.mp hRun
      obtain ⟨url, hDel, hUrl⟩ := Option.bind_eq_some_iff.mp hCall
      obtain rfl := Option.some.inj hUrl
      obtain rfl := Option.some.inj hRes
      exact ⟨h.words, h.wordsN, (h.url.del hBytes hDel).1, h.trie, h.down⟩
    · exact Option.some.inj hRun ▸ h

end Steps

/-! ### Messages -/

theorem field_suffix {k : Nat} {s s' : List UInt8} (h : field k s = some s') : s' <:+ s := by
  induction k generalizing s with
  | zero => exact Option.some.inj h ▸ List.suffix_refl s
  | succ k ih =>
    obtain ⟨rest, hBar, hRest⟩ := Option.bind_eq_some_iff.mp h
    refine (ih hRest).trans ?_
    unfold afterBar at hBar
    split at hBar
    · cases hBar
    · rename_i c rest' hDrop
      obtain rfl := Option.some.inj hBar
      exact ((List.suffix_cons c _).trans (hDrop ▸ List.dropWhile_suffix _))

theorem fit256_upToBar {k : Nat} {rule keyword text : List UInt8} (hRule : 0 ∉ rule)
    (hField : field k rule = some keyword) (hFit : fit256 (upToBar keyword) = some text) :
    0 ∉ text ∧ text.length < 256 := by
  simp only [fit256, Option.ite_none_right_eq_some, Option.some.injEq] at hFit
  obtain ⟨hLength, rfl⟩ := hFit
  exact ⟨fun hMem => hRule ((field_suffix hField).subset
    ((List.takeWhile_sublist _).subset hMem)), hLength⟩

theorem contentFields_rule1 {rule : List UInt8} {f : ContentFields} (hRule : 0 ∉ rule)
    (h : contentFields rule = some f) : 0 ∉ f.rule1 ∧ f.rule1.length < 256 := by
  simp only [contentFields, Option.bind_eq_bind, Option.bind_eq_some_iff] at h
  obtain ⟨keyword, hKeyword, _, -, _, -, _, -, rule1, hFit, hRes⟩ := h
  obtain rfl := Option.some.inj hRes
  exact fit256_upToBar hRule hKeyword hFit

theorem urlFields_rule1 {rule : List UInt8} {f : UrlFields} (hRule : 0 ∉ rule)
    (h : urlFields rule = some f) : 0 ∉ f.rule1 ∧ f.rule1.length < 256 := by
  simp only [urlFields, Option.bind_eq_bind, Option.bind_eq_some_iff] at h
  obtain ⟨keyword, hKeyword, _, -, _, -, rule1, hFit, hRes⟩ := h
  obtain rfl := Option.some.inj hRes
  exact fit256_upToBar hRule hKeyword hFit

/-- Every message keeps the invariant. -/
theorem Stores.Sound.step {r r' : Stores} {rule : List UInt8} (h : r.Sound) (hRule : 0 ∉ rule)
    (hRun : ruleProcess r rule = some r') : r'.Sound := by
  unfold ruleProcess at hRun
  split at hRun
  · obtain ⟨f, hFields, hRest⟩ := Option.bind_eq_some_iff.mp hRun
    exact h.processContent (contentFields_rule1 hRule hFields).1 hRest
  split at hRun
  · obtain ⟨f, -, hRest⟩ := Option.bind_eq_some_iff.mp hRun
    exact h.processTrie (fun pattern t ht => h.trie.insertForUserid ht) hRest
  split at hRun
  · obtain ⟨f, -, hRest⟩ := Option.bind_eq_some_iff.mp hRun
    exact h.processTrie (fun pattern t ht => h.trie.insertForResourceid ht) hRest
  split at hRun
  · obtain ⟨f, hFields, hRest⟩ := Option.bind_eq_some_iff.mp hRun
    exact h.processUrl (urlFields_rule1 hRule hFields).1 hRest
  · exact Option.some.inj hRun ▸ h

/-- The invariant holds after every run. -/
theorem Stores.Sound.run {rules : List (List UInt8)} {r r' : Stores} (h : r.Sound)
    (hRules : ∀ rule ∈ rules, 0 ∉ rule) (hRun : rules.foldlM ruleProcess r = some r') :
    r'.Sound := by
  induction rules generalizing r with
  | nil =>
    obtain rfl : r = r' := by simpa using hRun
    exact h
  | cons rule rules ih =>
    rw [List.foldlM_cons] at hRun
    obtain ⟨r₁, hStep, hRest⟩ := Option.bind_eq_some_iff.mp hRun
    exact ih (h.step (hRules rule List.mem_cons_self) hStep)
      (fun rule hRule => hRules rule (List.mem_cons_of_mem _ hRule)) hRest

theorem initLoop_sound : ∃ r, initLoop = some r ∧ r.Sound := by
  obtain ⟨r, hRun, -⟩ := initLoop_spec
  refine ⟨r, hRun, ?_⟩
  simp only [initLoop, Option.bind_eq_bind] at hRun
  obtain ⟨r₁, hRun₁, hRest⟩ := Option.bind_eq_some_iff.mp hRun
  obtain ⟨r₂, hRun₂, hRun₃⟩ := Option.bind_eq_some_iff.mp hRest
  have h₁ := noRules_sound.addQueryRule (by decide +kernel) hRun₁
  have h₂ := h₁.addQueryRule (by decide +kernel) hRun₂
  exact h₂.addQueryRule (by decide +kernel) hRun₃

end Shutter.Rules
