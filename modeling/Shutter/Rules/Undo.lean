import Shutter.Rules.Sound

/-! The message that disables a rule behind the one that enables it.  The two branches do not mirror
each other: the keywords of a query stay in their automaton, which is harmless, but the keywords of
the down stream stay or go with the rules of the other stores. -/

namespace Shutter.Rules

open Shutter.Acsm Shutter.StringMatcher Shutter.RuleTrie Shutter.Acch Shutter.Library

/-! ### The rule of a message -/

/-- What `rule_process` reads of a message, but for the state. -/
inductive Message where
  | content (rule1 : List UInt8) (workmode upOrDown : UInt8)
  | user (id action : List UInt8)
  | resource (id action : List UInt8)
  | url (rule1 : List UInt8)

/-- A C string with the rule and a state. -/
def Message.Carries (q : Message) (state : UInt8) (rule : List UInt8) : Prop :=
  0 ∉ rule ∧ match q with
    | .content rule1 workmode upOrDown => rule.head? = some 49 ∧
      contentFields rule = some ⟨rule1, some state, some workmode, some upOrDown⟩
    | .user id action => rule.head? = some 50 ∧ idFields rule = some ⟨id, action, some state⟩
    | .resource id action => rule.head? = some 51 ∧ idFields rule =
        some ⟨id, action, some state⟩
    | .url rule1 => rule.head? = some 52 ∧ urlFields rule = some ⟨rule1, some state⟩

/-- A string that the trie can insert. -/
def Insertable (text : List UInt8) : Prop := text.length < 256 ∧ ∀ c ∈ text, (c2i c).isSome

/-- The rule has a mode, a direction and a text that its branch can process. -/
def Message.WellFormed : Message → Prop
  | .content rule1 workmode upOrDown =>
    (workmode = 49 ∨ workmode = 50) ∧ (upOrDown = 49 ∨ upOrDown = 50) ∧
      (workmode = 49 ∨ upOrDown = 49 → (parseQuery rule1).isSome)
  | .user id action => Insertable (joinFields id action [42])
  | .resource id action => Insertable (joinFields [42] action id)
  | .url _ => True

/-- A live rule of the table has the text. -/
def QueryTable.Has (table : QueryTable) (text : List UInt8) : Prop :=
  ∃ qe, some qe ∈ table ∧ qe.fullText = text

/-- The rule is in the store that it belongs to. -/
def Message.Present (r : Stores) : Message → Prop
  | .content rule1 workmode upOrDown =>
    if workmode = 49 then r.tableN.Has rule1
    else if upOrDown = 49 then r.table.Has rule1
    else rule1 ∈ r.down.n.acsmPatterns
  | .user id action => r.trie.Has (joinFields id action [42])
  | .resource id action => r.trie.Has (joinFields [42] action id)
  | .url rule1 => rule1 ∈ r.automata.url.b.acsmPatterns

/-- The table has a slot for the rule of the text.  And no live rule has an empty operand, which is
found with a byte that begins no word, or the words of the new rule begin with bytes that words of
the list begin with. -/
def QueryTable.Accepts (table : QueryTable) (m : Buffers) (text : List UInt8) : Prop :=
  table.length < 10000 ∧ ((∀ qe, some qe ∈ table → [] ∉ qe.query) ∨
    ∀ qe, parseQuery text = some qe → ∀ w ∈ qe.query,
      PrefixOfSome m.b.acsmPatterns (w.take 1))

/-- The deletion of the text from the list finds a list, and takes no keyword away: the text is not
there, or there more than once. -/
def Down.Spares (d : Down) (text : List UInt8) : Prop :=
  d.n.acsmPatterns ≠ [] ∧ (text ∈ d.n.acsmPatterns →
    text ∈ d.n.acsmPatterns.erase text ∧ [] ∉ d.n.acsmPatterns)

/-- The escaped form of the text, if there is one, is in the list already. -/
def Down.Escaped (d : Down) (text : List UInt8) : Prop :=
  ∀ key, strtounicode text = some key → key ∈ d.n.acsmPatterns ∧ [] ∉ d.n.acsmPatterns

/-- Where the disable branch undoes the enable branch. -/
def Message.Undone (r : Stores) : Message → Prop
  | .content rule1 workmode upOrDown =>
    if workmode = 49 then
      r.tableN.Accepts r.automata.kwN rule1 ∧
        (upOrDown = 50 → rule1 ∈ r.down.n.acsmPatterns ∧
        [] ∉ r.down.n.acsmPatterns ∧ r.down.Escaped rule1)
    else if upOrDown = 49 then r.table.Accepts r.automata.kw rule1 ∧ r.down.Spares rule1
    else r.down.Escaped rule1 ∧ ¬r.table.Has rule1
  | .user id action =>
    r.trie.Room r.trie.globalPatternIdForUserid (joinFields id action [42])
  | .resource id action =>
    r.trie.Room r.trie.globalPatternIdForResourceid (joinFields [42] action id)
  | .url _ => True

/-- The matchers answer in the second stores as in the first.  Those that follow a null pointer
before the first update may do anything there. -/
structure SameResults (r r' : Stores) : Prop where
  logicQueryMatch : ∀ text, logicQueryMatch r' text = logicQueryMatch r text
  logicQueryMatchN : ∀ text, logicQueryMatchN r' text = logicQueryMatchN r text
  urlMatch : ∀ text n, urlMatch r.automata text = some n → urlMatch r'.automata text = some n
  match_tupe : ∀ tupe id, match_tupe r'.trie tupe id = match_tupe r.trie tupe id
  keywordMatch : ∀ l dbuf len memory ret, keywordMatch r.down l dbuf len memory = some ret →
    keywordMatch r'.down l dbuf len memory = some ret

/-! ### The keywords of the down stream -/

theorem textScanner_congr {ps ps' : List Pattern} (h : ∀ p, p ∈ ps ↔ p ∈ ps') :
    textScanner ps = textScanner ps' := by
  have hLong : ∀ t, longestPrefix ps t = longestPrefix ps' t :=
    longestSuffix_congr fun w => or_congr_right (exists_congr fun p => and_congr_left' (h p))
  have hHit : ∀ t, (∃ p ∈ ps, p <:+ t) ↔ ∃ p ∈ ps', p <:+ t := fun t =>
    exists_congr fun p => and_congr_left' (h p)
  simp only [textScanner, hLong, hHit]

/-- A list with other copies of the same keywords gives the same results. -/
theorem keywordMatch_perm {d d' : Down} {ps ps' : List Pattern} (h : d.Published ps)
    (h' : d'.Published ps') (hSame : ∀ p, p ∈ ps ↔ p ∈ ps') (hNonempty : [] ∉ ps)
    (l : Nat → UInt8) (dbuf : Nat → UInt16) (len : Nat) (memory : Memory) :
    keywordMatch d l dbuf len memory = keywordMatch d' l dbuf len memory := by
  rw [h.keywordMatch fun p hp heq => hNonempty (heq ▸ hp),
    h'.keywordMatch fun p hp heq => hNonempty ((hSame []).mpr (heq ▸ hp)),
      textScanner_congr hSame]

/-- Before the first update, `keyword_match` returns for the empty text only. -/
theorem keywordMatch_start {d d' : Down} (h : d.m.acsmStateTable = none) {l : Nat → UInt8}
    {dbuf : Nat → UInt16} {len ret : Nat} {memory : Memory}
    (hRun : keywordMatch d l dbuf len memory = some ret) :
    keywordMatch d' l dbuf len memory = some ret := by
  cases len with
  | zero => exact hRun
  | succ len =>
    have hToken : ∀ (l : UInt8) (dbuf : UInt16) (a : Window Nat),
        a.token (scanner d.m) l dbuf = (none : Option _) := by
      intro l dbuf a
      unfold Window.token
      split
      · simp [Window.literal, scanner, scanAC, fsm, h]
        rfl
      · simp [Window.copy, Window.leftBorder, scanner, h]
        rfl
    have hSearch : search (scanner d.m) l dbuf 0 (len + 1) memory = none := by
      show (Window.tokens (scanner d.m) l dbuf (len + 1) 0
        ⟨{ memory with w := 0 }, 0⟩).run >>= _ =
        none
      rw [Window.tokens, hToken]
      rfl
    rw [Rules.keywordMatch, acch, hSearch] at hRun
    cases hRun

theorem Down.Sound.keywordMatch {d d' : Down} (h : d.Sound) (h' : d'.Published d.n.acsmPatterns)
    {l : Nat → UInt8} {dbuf : Nat → UInt16} {len ret : Nat} {memory : Memory}
    (hRun : Rules.keywordMatch d l dbuf len memory = some ret) :
    Rules.keywordMatch d' l dbuf len memory = some ret := by
  rcases h.compiled with hPublished | ⟨hTable, -⟩
  · rw [keywordMatch_congr h' hPublished, hRun]
  · exact keywordMatch_start hTable hRun

/-! ### The query rules -/

/-- A rule that is added to a table without its text, and deleted, leaves an empty slot. -/
theorem QueryTable.del_concat {table : QueryTable} {qe : QueryExpression} {text : List UInt8}
    (hText : qe.fullText = text) (hAbsent : ¬table.Has text) :
    QueryTable.del (table ++ [some qe]) text = table ++ [none] := by
  have hTable : table.del text = table :=
    QueryTable.del_of_not_mem fun qe hqe hText => hAbsent ⟨qe, hqe, hText⟩
  rw [QueryTable.del] at hTable ⊢
  rw [List.map_append, hTable]
  simp [hText]

/-- New words that begin with the bytes of others begin no word that was none. -/
theorem prefixOfSome_append {ws ps : List Pattern}
    (h : ∀ w ∈ ws, PrefixOfSome ps (w.take 1)) (c : UInt8) :
    PrefixOfSome ps [c] ↔ PrefixOfSome (ws.reverse ++ ps) [c] := by
  constructor
  · rintro (hNil | ⟨p, hp, hPrefix⟩)
    · cases hNil
    · exact Or.inr ⟨p, List.mem_append_right _ hp, hPrefix⟩
  · rintro (hNil | ⟨p, hp, hPrefix⟩)
    · cases hNil
    rcases List.mem_append.mp hp with hNew | hOld
    · have hFirst := h p (List.mem_reverse.mp hNew)
      obtain ⟨rest, rfl⟩ := hPrefix
      exact hFirst
    · exact Or.inr ⟨p, hOld, hPrefix⟩

/-- The words of a new rule, and its empty slot, do not change what the rules find. -/
theorem Words.hits {m m' : Buffers} {table : QueryTable} {text : List UInt8} {qe : QueryExpression}
    (h : Words m table) (hAccepts : table.Accepts m text) (hs : 0 ∉ text)
    (hQuery : parseQuery text = some qe) (hWords : qe.query.foldlM Buffers.add m = some m')
    (t : List UInt8) :
    QueryTable.hits (fun qe => qe.matches (acsmSearch m'.a t) (acsmSearchKw m'.a t))
        (table ++ [none]) 0 =
      table.hits (fun qe => qe.matches (acsmSearch m.a t) (acsmSearchKw m.a t)) 0 := by
  rw [QueryTable.hits_concat_none]
  refine QueryTable.hits_congr (fun qe' hqe' => ?_) 0
  refine ((h.matches_congr (h.grow hWords) hqe' fun hBlank c => ?_) t).symm
  have hBegin := (hAccepts.2.resolve_left fun hFilled => hFilled qe' hqe' hBlank) qe hQuery
  have hTerminated : qe.query.map cstr = qe.query :=
    (List.map_congr_left fun w hw => cstr_eq (parseQuery_words hs hQuery w hw)).trans
      (List.map_id qe.query)
  rw [(foldlM_add_listed hWords).2, hTerminated]
  exact prefixOfSome_append hBegin c

/-! ### The pairs of messages -/

section Pairs

variable {r : Stores} {text : List UInt8}

/-- `del_str` leaves the results of a list that has the text more than once, or not at all. -/
theorem Down.Sound.spares {d : Down} (h : d.Sound) (hs : 0 ∉ text) (hSpares : d.Spares text) :
    ∃ d', Rules.delStr d text = some d' ∧ ∀ l dbuf len memory ret,
      Rules.keywordMatch d l dbuf len memory = some ret →
        Rules.keywordMatch d' l dbuf len memory = some ret := by
  obtain ⟨hList, hTwice⟩ := hSpares
  obtain ⟨d', hDel, hPublished⟩ := delStr_published (d := d) rfl hList h.keyword hs
  refine ⟨d', hDel, fun l dbuf len memory ret hRun => ?_⟩
  by_cases hMem : text ∈ d.n.acsmPatterns
  · obtain ⟨hLeft, hNonempty⟩ := hTwice hMem
    have hStart := h.compiled.resolve_right fun hStart => hList hStart.2
    rw [← keywordMatch_perm hStart hPublished ?_ hNonempty, hRun]
    intro p
    by_cases hp : p = text
    · subst hp
      exact iff_of_true hMem hLeft
    · exact (List.mem_erase_of_ne hp).symm
  · rw [List.erase_of_not_mem hMem] at hPublished
    exact h.keywordMatch hPublished hRun

/-- A blocking rule of the up stream: `del_str` runs too, on a list that must keep its keywords. -/
theorem undo_up (h : r.Sound) (hs : 0 ∉ text) (hLength : text.length < 256)
    (hQuery : (parseQuery text).isSome) (hAbsent : ¬r.table.Has text)
    (hAccepts : r.table.Accepts r.automata.kw text) (hSpares : r.down.Spares text) :
    ∃ r₁ r₂, addQueryRule r text = some r₁ ∧
      (delQueryRule r₁ text).onDown (delStr · text) = some r₂ ∧ SameResults r r₂ := by
  obtain ⟨qe, hQuery⟩ := Option.isSome_iff_exists.mp hQuery
  obtain ⟨r₁, hAdd⟩ := addQueryRule_total r text hAccepts.1 (by rw [hQuery]; rfl)
  obtain ⟨kw, hWords, rfl⟩ := addQueryRule_eq hQuery hAdd
  obtain ⟨d, hDel, hKeywords⟩ := h.down.spares hs hSpares
  refine ⟨_, _, hAdd, Stores.onDown_eq hDel, ?_⟩
  have hTable := QueryTable.del_concat (parseQuery_fullText hLength hQuery) hAbsent
  refine ⟨fun t => ?_, fun _ => rfl, fun _ _ hRun => hRun,
    fun _ _ => rfl, hKeywords⟩
  show (QueryTable.hits _ (QueryTable.del (r.table ++ [some qe]) text) 0).bind hitRuleList = _
  rw [hTable]
  exact congrArg (Option.bind · hitRuleList) (h.words.hits hAccepts hs hQuery hWords (cstr t))

/-- A blocking rule of the down stream: `del_query_rule` runs too, and the escaped form stays. -/
theorem undo_down (h : r.Sound) (hs : 0 ∉ text)
    (hAbsent : text ∉ r.down.n.acsmPatterns) (hEscaped : r.down.Escaped text)
    (hTable : ¬r.table.Has text) :
    ∃ r₁ r₂, r.onDown (addKeyword · text) = some r₁ ∧
      (delQueryRule r₁ text).onDown (delStr · text) = some r₂ ∧ SameResults r r₂ := by
  obtain ⟨d₁, hAdd, h₁⟩ := addKeyword_published (d := r.down) rfl hs
  have hKeyword : ∀ p ∈ (strtounicode text).toList ++ text :: r.down.n.acsmPatterns,
    0 ∉ p := by
    obtain ⟨d', hAdd', hSound⟩ := h.down.addKeyword hs
    obtain rfl := Option.some.inj (hAdd.symm.trans hAdd')
    exact h₁.spare ▸ hSound.keyword
  obtain ⟨d₂, hDel, h₂⟩ := delStr_published h₁.spare (by simp) hKeyword hs
  have hNotKey : text ∉ (strtounicode text).toList := fun hMem =>
    hAbsent (hEscaped text (Option.mem_toList.mp hMem)).1
  rw [List.erase_append_right _ hNotKey, List.erase_cons_head] at h₂
  refine ⟨_, _, Stores.onDown_eq hAdd, Stores.onDown_eq hDel, ?_⟩
  have hRules : r.table.del text = r.table :=
    QueryTable.del_of_not_mem fun qe hqe hText => hTable ⟨qe, hqe, hText⟩
  refine ⟨fun t => ?_, fun _ => rfl, fun _ _ hRun => hRun,
    fun _ _ => rfl, ?_⟩
  · show (QueryTable.hits _ (r.table.del text) 0).bind hitRuleList = _
    rw [hRules]
    rfl
  · intro l dbuf len memory ret hRun
    cases hKey : strtounicode text with
    | none =>
      rw [hKey] at h₂
      exact h.down.keywordMatch h₂ hRun
    | some key =>
      obtain ⟨hMem, hNonempty⟩ := hEscaped key hKey
      have hPublished := h.down.compiled.resolve_right fun hStart => by simp [hStart.2] at hMem
      rw [← keywordMatch_perm hPublished h₂ ?_ hNonempty, hRun]
      simp [hKey, hMem]

/-- A monitoring rule: `del_query_rule_N` runs alone, so what the rule has added to the keywords of
the down stream stays. -/
theorem undo_monitor (h : r.Sound) (hs : 0 ∉ text) (hLength : text.length < 256)
    (hQuery : (parseQuery text).isSome) (hAbsent : ¬r.tableN.Has text)
    (hAccepts : r.tableN.Accepts r.automata.kwN text) (down : Prop) [Decidable down]
    (hDown : down → text ∈ r.down.n.acsmPatterns ∧ [] ∉ r.down.n.acsmPatterns ∧
      r.down.Escaped text) :
    ∃ r₁, ((addQueryRuleN r text).bind fun r =>
        if down then r.onDown (addKeyword · text) else some r) = some r₁ ∧
      SameResults r (delQueryRuleN r₁ text) := by
  obtain ⟨qe, hQuery⟩ := Option.isSome_iff_exists.mp hQuery
  obtain ⟨r₁, hAdd⟩ := addQueryRuleN_total r text hAccepts.1 (by rw [hQuery]; rfl)
  obtain ⟨kwN, hWords, rfl⟩ := addQueryRuleN_eq hQuery hAdd
  have hTable := QueryTable.del_concat (parseQuery_fullText hLength hQuery) hAbsent
  have hRules : ∀ t, (QueryTable.hits
      (fun qe => qe.matches (acsmSearch kwN.a (cstr t)) (acsmSearchKw kwN.a (cstr t)))
      (QueryTable.del (r.tableN ++ [some qe]) text) 0).bind hitRuleList = logicQueryMatchN r t := by
    intro t
    rw [hTable]
    exact congrArg (Option.bind · hitRuleList) (h.wordsN.hits hAccepts hs hQuery hWords (cstr t))
  rw [hAdd, Option.bind_some]
  by_cases hd : down
  · obtain ⟨hMem, hNonempty, hEscaped⟩ := hDown hd
    obtain ⟨d, hRun, hPublished⟩ := addKeyword_published (d := r.down) rfl hs
    rw [if_pos hd, Stores.onDown_eq hRun]
    refine ⟨_, rfl, fun _ => rfl, hRules, fun _ _ hRun => hRun, fun _ _ => rfl, ?_⟩
    intro l dbuf len memory ret hRet
    have hStart := h.down.compiled.resolve_right fun hStart => by simp [hStart.2] at hMem
    have hSame : ∀ p, p ∈ r.down.n.acsmPatterns ↔
        p ∈ (strtounicode text).toList ++ text :: r.down.n.acsmPatterns := by
      intro p
      rw [List.mem_append, List.mem_cons]
      constructor
      · exact fun hp => Or.inr (Or.inr hp)
      · rintro (hp | rfl | hp)
        · exact (hEscaped p (Option.mem_toList.mp hp)).1
        · exact hMem
        · exact hp
    exact (keywordMatch_perm hStart hPublished hSame hNonempty l dbuf len memory).symm.trans hRet
  · rw [if_neg hd]
    exact ⟨_, rfl, fun _ => rfl, hRules, fun _ _ hRun => hRun, fun _ _ => rfl,
      fun _ _ _ _ _ hRun => hRun⟩

/-- A rule of the trie. -/
theorem undo_trie (h : r.Sound) {id : Int} (hId : id ≠ -1) (hRoom : r.trie.Room id text)
    (hText : Insertable text) (hAbsent : ¬r.trie.Has text)
    {insert : Trie → List UInt8 → Option Trie}
    (hInsert : ∀ root, insertPath id r.trie.trieTreeRoot text = some root →
      ∃ t, insert r.trie text = some t ∧ t.trieTreeRoot = root) :
    ∃ r₁ r₂, processTrie r (some 49) insert text = some r₁ ∧
      processTrie r₁ (some 48) insert text = some r₂ ∧ SameResults r r₂ := by
  obtain ⟨root, hPath, hUndo⟩ := h.trie.undo hId hRoom hText.2 hAbsent
  obtain ⟨t, hRun, hRoot⟩ := hInsert root hPath
  obtain ⟨t', hDel, hMatch⟩ := hUndo t hRoot
  have hFit : fit256 text = some text := if_pos hText.1
  refine ⟨{ r with trie := t }, { r with trie := t' }, ?_, ?_, fun _ => rfl, fun _ => rfl,
    fun _ _ hRun => hRun, hMatch, fun _ _ _ _ _ hRun => hRun⟩
  · simp [processTrie, hFit, Stores.onTrie, hRun]
  · simp [processTrie, hFit, Stores.onTrie, hDel]

theorem acsmSearch_congr {acsm acsm' : AcsmStruct}
    (h : acsm.acsmStateTable = acsm'.acsmStateTable) (t : List UInt8) :
    acsmSearch acsm t = acsmSearch acsm' t := by
  simp only [acsmSearch, AcsmStruct.visit, h]

/-- A url that is added and deleted leaves the automaton of the same list. -/
theorem Urls.undo {m : Buffers} (h : Urls m) (hs : 0 ∉ text) :
    ∃ m₁ m₂, m.add text = some m₁ ∧ m₁.del text = some m₂ ∧
      ∀ t k, acsmSearch m.a t = some k → acsmSearch m₂.a t = some k := by
  obtain ⟨m₁, hAdd⟩ := publish_total ⟨m.a, acsmAddPattern m.b (cstr text)⟩
  obtain ⟨h₁, hList₁, -⟩ := h.add hs hAdd
  obtain ⟨m₂, hDel⟩ : ∃ m₂, m₁.del text = some m₂ := by
    rw [Buffers.del, acsmDelPattern, hList₁]
    exact publish_total _
  obtain ⟨-, hCompiled⟩ := h₁.del hs hDel
  rw [hList₁, List.erase_cons_head] at hCompiled
  obtain ⟨-, b, hBuild, hTable⟩ := hCompiled
  refine ⟨m₁, m₂, hAdd, hDel, fun t k hRun => ?_⟩
  rcases h.compiled with ⟨-, b', hBuild', hTable'⟩ | hStart
  · obtain rfl := Option.some.inj (hBuild.symm.trans hBuild')
    rw [acsmSearch_congr (hTable.trans hTable'.symm), hRun]
  · cases t with
    | nil => exact hRun
    | cons c t => simp [acsmSearch, AcsmStruct.visit, hStart] at hRun

theorem undo_url (h : r.Sound) (hs : 0 ∉ text) :
    ∃ r₁ r₂, r.onAutomata (addurl · text) = some r₁ ∧
      r₁.onAutomata (delurl · text) = some r₂ ∧ SameResults r r₂ := by
  obtain ⟨m₁, m₂, hAdd, hDel, hSearch⟩ := h.url.undo hs
  refine ⟨{ r with automata := { r.automata with url := m₁ } },
    { r with automata := { r.automata with url := m₂ } }, ?_, ?_, fun _ => rfl, fun _ => rfl,
    fun t k => hSearch (cstr t) k, fun _ _ => rfl, fun _ _ _ _ _ hRun => hRun⟩
  · simp [Stores.onAutomata, addurl, hAdd]
  · simp [Stores.onAutomata, delurl, hDel]

end Pairs

/-! ### The theorem -/

/-- What `rule_process` does for a rule. -/
def Message.process (r : Stores) (state : UInt8) : Message → Option Stores
  | .content rule1 workmode upOrDown =>
    processContent r ⟨rule1, some state, some workmode, some upOrDown⟩
  | .user id action => processUser r ⟨id, action, some state⟩
  | .resource id action => processResource r ⟨id, action, some state⟩
  | .url rule1 => processUrl r ⟨rule1, some state⟩

theorem Message.Carries.ruleProcess {q : Message} {state : UInt8} {rule : List UInt8}
    (h : q.Carries state rule) (r : Stores) : Rules.ruleProcess r rule = q.process r state := by
  obtain ⟨-, h⟩ := h
  unfold Rules.ruleProcess
  cases q with
  | content rule1 workmode upOrDown =>
    rw [if_pos h.1, h.2]
    rfl
  | user id action =>
    rw [if_neg (by rw [h.1]; decide), if_pos h.1, h.2]
    rfl
  | resource id action =>
    rw [if_neg (by rw [h.1]; decide), if_neg (by rw [h.1]; decide), if_pos h.1, h.2]
    rfl
  | url rule1 =>
    rw [if_neg (by rw [h.1]; decide), if_neg (by rw [h.1]; decide), if_neg (by rw [h.1]; decide),
      if_pos h.1, h.2]
    rfl

/-- From every sound state, the two messages leave the same results where the condition holds. -/
theorem Stores.Sound.undo {r : Stores} (h : r.Sound) {q : Message} {rule : List UInt8}
    {state : UInt8} (hCarries : q.Carries state rule) (hForm : q.WellFormed)
    (hAbsent : ¬q.Present r) (hUndone : q.Undone r) :
    ∃ r₁ r₂, q.process r 49 = some r₁ ∧ q.process r₁ 48 = some r₂ ∧
      SameResults r r₂ := by
  obtain ⟨hRule, hCarries⟩ := hCarries
  cases q with
  | content rule1 workmode upOrDown =>
    obtain ⟨hs, hLength⟩ := contentFields_rule1 hRule hCarries.2
    obtain ⟨rfl | rfl, hDirection, hQuery⟩ := hForm
    · obtain ⟨hAccepts, hDown⟩ := hUndone
      obtain ⟨r₁, hRun, hSame⟩ :=
        undo_monitor h hs hLength (hQuery (Or.inl rfl)) hAbsent hAccepts
        (some upOrDown = some 50) fun hDown' => hDown (Option.some.inj hDown')
      exact ⟨r₁, _, hRun, rfl, hSame⟩
    · rcases hDirection with rfl | rfl
      · exact undo_up h hs hLength (hQuery (Or.inr rfl)) hAbsent hUndone.1 hUndone.2
      · exact undo_down h hs hAbsent hUndone.1 hUndone.2
  | user id action =>
    have hId := h.trie.userid
    refine undo_trie h (by omega) hUndone hForm hAbsent fun root hRoot => ?_
    exact ⟨_, by rw [insertForUserid, hRoot]; rfl, rfl⟩
  | resource id action =>
    have hId := h.trie.resourceid
    refine undo_trie h (by omega) hUndone hForm hAbsent fun root hRoot => ?_
    exact ⟨_, by rw [insertForResourceid, hRoot]; rfl, rfl⟩
  | url rule1 => exact undo_url h (urlFields_rule1 hRule hCarries.2).1

end Shutter.Rules
