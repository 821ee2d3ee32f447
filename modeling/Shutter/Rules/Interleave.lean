import Shutter.Rules.Calls

/-! One `get_decision` beside the updates of the rule threads.  There is no lock: between the steps
of the matching thread the updates swap the automata and empty slots of the tables.  An update is
one step, and so is each read of the matching thread: the urls, a slot of a table, a pass of an
automaton over the text, the trie, and the `full_text` of a recorded slot.  The log records are left
out. -/

namespace Shutter.Rules

open Shutter.Acsm Shutter.StringMatcher Shutter.RuleTrie Shutter.Library

/-! ### Updates -/

/-- The keyword automata of the blocking rules, or of the monitoring rules. -/
def Stores.keywords (r : Stores) (monitor : Bool) : Buffers :=
  if monitor then r.automata.kwN else r.automata.kw

/-- The table of the blocking rules, or of the monitoring rules. -/
def Stores.rules (r : Stores) (monitor : Bool) : QueryTable :=
  if monitor then r.tableN else r.table

/-- An update of a rule thread.  The flag stands for the `N` in the name of the function. -/
inductive Update where
  | addstr (monitor : Bool) (s : List UInt8)
  | delstr (monitor : Bool) (s : List UInt8)
  | addQueryRule (monitor : Bool) (query : List UInt8)
  | delQueryRule (monitor : Bool) (query : List UInt8)
  | addurl (s : List UInt8)
  | delurl (s : List UInt8)

/-- One update. -/
def Update.run (r : Stores) : Update → Option Stores
  | .addstr false s => r.onAutomata (StringMatcher.addstr · s)
  | .addstr true s => r.onAutomata (addstrN · s)
  | .delstr false s => r.onAutomata (StringMatcher.delstr · s)
  | .delstr true s => r.onAutomata (delstrN · s)
  | .addQueryRule false query => Call.run r (.addQueryRule query)
  | .addQueryRule true query => Call.run r (.addQueryRuleN query)
  | .delQueryRule false query => Call.run r (.delQueryRule query)
  | .delQueryRule true query => Call.run r (.delQueryRuleN query)
  | .addurl s => r.onAutomata (StringMatcher.addurl · s)
  | .delurl s => r.onAutomata (StringMatcher.delurl · s)

/-! ### The matching thread -/

/-- Where the matching thread stands. -/
inductive Phase where
  /-- Before `url_match`. -/
  | url
  /-- Before the read of `table[i]`. -/
  | slot (monitor : Bool) (i : Nat)
  /-- In `match_` of the rule of slot `i`, before `kw_match`. -/
  | count (monitor : Bool) (i : Nat) (qe : QueryExpression)
  /-- In `match_`, before `get_keywords`, with an array of `ra` entries. -/
  | collect (monitor : Bool) (i : Nat) (qe : QueryExpression) (ra : Nat)
  /-- Before `trie_chk_rule`. -/
  | trie
  /-- Before the reads of `full_text` of these slots. -/
  | read (monitor : Bool) (slots : List Nat)
  /-- At the end of `get_decision`. -/
  | done

/-- The variables of `get_decision`: the request, what `url_match` returned, and the two hit
lists. -/
structure Matcher where
  request : ConnectionInfo
  phase : Phase
  matched : Nat
  hits : List Nat
  hitsN : List Nat

/-- The hit list of the blocking rules, or of the monitoring rules. -/
def Matcher.list (t : Matcher) (monitor : Bool) : List Nat := if monitor then t.hitsN else t.hits

/-- A hit is recorded, which fails where none of the 32 places of the list is left. -/
def Matcher.record (t : Matcher) (monitor hit : Bool) (i : Nat) : Option Matcher :=
  if hit then
    if (t.list monitor).length < 32 then
      some (if monitor then { t with hitsN := t.hitsN ++ [i] }
            else { t with hits := t.hits ++ [i] })
    else none
  else some t

/-- One step of the matching thread.  It fails where it follows a null pointer, or writes behind the
array of keywords or behind a hit list. -/
def Matcher.advance (r : Stores) (t : Matcher) : Option Matcher :=
  match t.phase with
  | .url => do
    let matched ← urlMatch r.automata t.request.url
    some { t with matched, phase := .slot false 0 }
  | .slot monitor i =>
    match (r.rules monitor)[i]? with
    | some (some qe) => some { t with phase := .count monitor i qe }
    | some none => some { t with phase := .slot monitor (i + 1) }
    | none => some { t with phase := if monitor then .trie else .slot true 0 }
  | .count monitor i qe => do
    let ra ← acsmSearch (r.keywords monitor).a (cstr t.request.comment)
    some { t with phase := .collect monitor i qe ra }
  | .collect monitor i qe ra => do
    let kw ← acsmSearchKw (r.keywords monitor).a (cstr t.request.comment)
    if ra < kw.length then none
    else do
      -- the entries that `get_keywords` does not reach hold the empty string
      let hit ← evaluate qe.logicOps (populateTf qe (kw ++ List.replicate (ra - kw.length) []))
      let t ← t.record monitor hit i
      some { t with phase := .slot monitor (i + 1) }
  | .trie => do
    let c := t.request
    let checked ← trieChkRule r.trie c.userId c.sId c.pType c.rId
    let url := if c.pType = 13 then 0 else t.matched
    let trie := if c.pType = 13 then t.matched + checked else checked
    if url = 0 ∧ t.hits = [] ∧ t.hitsN = [] ∧ trie = 0 then some { t with phase := .done }
    else if 0 < t.hitsN.length ∧ url = 0 ∧ t.hits = [] ∧ trie = 0 then
      some { t with phase := .read true t.hitsN }
    else some { t with phase := .read false t.hits }
  | .read monitor (i :: slots) =>
    match (r.rules monitor)[i]? with
    | some (some _) => some { t with phase := .read monitor slots }
    | _ => none
  | .read _ [] => some { t with phase := .done }
  | .done => some t

/-- The stores and the matching thread. -/
structure System where
  stores : Stores
  matcher : Matcher

/-- A step of the system. -/
inductive Event where
  | update (u : Update)
  | advance

/-- One step of the system. -/
def System.step (s : System) : Event → Option System
  | .update u => do
    let stores ← u.run s.stores
    some { s with stores }
  | .advance => do
    let matcher ← s.matcher.advance s.stores
    some { s with matcher }

/-- The system before the first rule and before `get_decision` of a request. -/
def System.start (c : ConnectionInfo) : System := ⟨noRules, ⟨c, .url, 0, [], []⟩⟩

/-! ### Safety -/

/-- The next step of the matching thread writes inside the array of keywords, and reads the
`full_text` of a rule. -/
def System.Safe (s : System) : Prop :=
  match s.matcher.phase with
  | .collect monitor _ _ ra =>
    ∀ kw, acsmSearchKw (s.stores.keywords monitor).a (cstr s.matcher.request.comment) =
      some kw →
      kw.length ≤ ra
  | .read monitor (i :: _) => ∃ qe, (s.stores.rules monitor)[i]? = some (some qe)
  | _ => True

/-- The words that an update adds to the automata. -/
def Update.words (monitor : Bool) : Update → List (List UInt8)
  | .addstr m s => if m = monitor then [s] else []
  | .addQueryRule m query =>
    if m = monitor then (parseQuery query).elim [] QueryExpression.query else []
  | _ => []

/-- The update leaves the automata alone. -/
def Update.Leaves (monitor : Bool) (u : Update) : Prop :=
  u.words monitor = [] ∧ ∀ s, u ≠ .delstr monitor s

/-- The slots whose `full_text` the thread may still read: those that it has recorded and not read,
and the one that it evaluates. -/
def Matcher.pending (t : Matcher) (monitor : Bool) : List Nat :=
  match t.phase with
  | .count m i _ => if m = monitor then t.list monitor ++ [i] else t.list monitor
  | .collect m i _ _ => if m = monitor then t.list monitor ++ [i] else t.list monitor
  | .read m slots => if m = monitor then slots else []
  | .done => []
  | _ => t.list monitor

/-- An update does no harm.  Between `kw_match` and `get_keywords` it adds no word that occurs in
the text (and leaves an automaton alone that has the empty word), and it deletes no rule whose text
may still be read. -/
def System.Harmless (s : System) : Event → Prop
  | .advance => True
  | .update u =>
    (∀ monitor i qe ra, s.matcher.phase = .collect monitor i qe ra → u.Leaves monitor ∨
      [] ∉ (s.stores.keywords monitor).b.acsmPatterns ∧
        ∀ w ∈ u.words monitor, ¬cstr w <:+: cstr s.matcher.request.comment) ∧
    ∀ monitor query, u = .delQueryRule monitor query → ∀ i ∈ s.matcher.pending monitor,
      ∀ qe, (s.stores.rules monitor)[i]? = some (some qe) → qe.fullText ≠ query

/-! ### Counts -/

/-- The active automaton is compiled from the list, once there has been an update. -/
def Linked (m : Buffers) : Prop :=
  m.a.Searches m.b.acsmPatterns ∨ m.a.acsmStateTable = none

section Counts

variable {m m' : Buffers} {s t : List UInt8} {k : Nat}

theorem Linked.count (h : Linked m) (hBlank : [] ∉ m.b.acsmPatterns)
    (hCount : acsmSearch m.a t = some k) : k = occurrences m.b.acsmPatterns t := by
  have hNonempty : ∀ p ∈ m.b.acsmPatterns, p ≠ [] := fun p hp heq => hBlank (heq ▸ hp)
  rcases h with hSearches | hNone
  · rw [acsmSearch_eq hSearches hNonempty] at hCount
    exact (Option.some.inj hCount).symm
  · cases t with
    | nil =>
      rw [occurrences_nil hNonempty]
      exact (Option.some.inj hCount).symm
    | cons c t => simp [acsmSearch, AcsmStruct.visit, hNone] at hCount

theorem add_count (h : Linked m) (hBlank : [] ∉ m.b.acsmPatterns) (hs : ¬cstr s <:+: t)
    (hCount : acsmSearch m.a t = some k) (hAdd : m.add s = some m') :
    acsmSearch m'.a t = some k ∧ [] ∉ m'.b.acsmPatterns := by
  obtain ⟨hCompiled, hList⟩ := add_listed hAdd
  have hBlank' : [] ∉ m'.b.acsmPatterns := by
    rw [hList, List.mem_cons, not_or]
    exact ⟨fun heq => hs (heq ▸ List.nil_infix), hBlank⟩
  refine ⟨?_, hBlank'⟩
  rw [acsmSearch_eq hCompiled.searches fun p hp heq => hBlank' (heq ▸ hp), hList,
    occurrences_cons_of_not_infix hs, h.count hBlank hCount]

theorem foldlM_add_count {ws : List (List UInt8)} (h : Linked m)
    (hBlank : [] ∉ m.b.acsmPatterns) (hs : ∀ w ∈ ws, ¬cstr w <:+: t)
    (hCount : acsmSearch m.a t = some k) (hAdd : ws.foldlM Buffers.add m = some m') :
    acsmSearch m'.a t = some k := by
  induction ws generalizing m with
  | nil =>
    obtain rfl : m = m' := by simpa using hAdd
    exact hCount
  | cons w ws ih =>
    rw [List.foldlM_cons] at hAdd
    obtain ⟨m₁, hStep, hRest⟩ := Option.bind_eq_some_iff.mp hAdd
    obtain ⟨hCount₁, hBlank₁⟩ := add_count h hBlank (hs w List.mem_cons_self) hCount hStep
    exact ih (Or.inl (add_listed hStep).1.searches) hBlank₁
      (fun w hw => hs w (List.mem_cons_of_mem _ hw)) hCount₁ hRest

theorem del_listed (hDel : m.del s = some m') :
    m'.a.Searches m'.b.acsmPatterns ∧ m'.b.acsmPatterns.Sublist m.b.acsmPatterns := by
  obtain ⟨b, hPattern, hPublish⟩ := Option.bind_eq_some_iff.mp hDel
  have hList : b.acsmPatterns.Sublist m.b.acsmPatterns := by
    unfold acsmDelPattern at hPattern
    split at hPattern
    · cases hPattern
    · obtain rfl := Option.some.inj hPattern
      exact List.eraseP_sublist
  have hSearches := publish_searches hPublish
  obtain ⟨b', -, hRes⟩ := Option.bind_eq_some_iff.mp hPublish
  obtain rfl := Option.some.inj hRes
  exact ⟨hSearches, hList⟩

theorem del_count (h : Linked m) (hBlank : [] ∉ m.b.acsmPatterns)
    (hCount : acsmSearch m.a t = some k) (hDel : m.del s = some m') :
    ∃ k' ≤ k, acsmSearch m'.a t = some k' := by
  obtain ⟨hSearches, hList⟩ := del_listed hDel
  refine ⟨_, ?_, acsmSearch_eq hSearches (fun p hp heq => hBlank (hList.subset (heq ▸ hp))) t⟩
  rw [h.count hBlank hCount]
  exact occurrences_sublist hList t

end Counts

/-! ### What an update does -/

section Updates

variable {r r' : Stores} {u : Update}

theorem onAutomata_inv {call : Automata → Option Automata} (h : r.onAutomata call = some r') :
    ∃ g, call r.automata = some g ∧ r' = { r with automata := g } := by
  obtain ⟨g, hCall, hRes⟩ := Option.bind_eq_some_iff.mp h
  exact ⟨g, hCall, (Option.some.inj hRes).symm⟩

/-- `addstr` and `addstr_N` add the string to their automata. -/
theorem run_addstr {m : Bool} {s : List UInt8} (h : (Update.addstr m s).run r = some r') :
    (r.keywords m).add s = some (r'.keywords m) ∧ r'.keywords (!m) = r.keywords (!m) ∧
      ∀ monitor, r'.rules monitor = r.rules monitor := by
  cases m
  all_goals
    rw [Update.run] at h
    obtain ⟨g, hCall, rfl⟩ := onAutomata_inv h
    obtain ⟨kw, hAdd, hRes⟩ := Option.bind_eq_some_iff.mp hCall
    obtain rfl := Option.some.inj hRes
    exact ⟨hAdd, rfl, fun _ => rfl⟩

/-- `delstr` and `delstr_N` delete the string from their automata. -/
theorem run_delstr {m : Bool} {s : List UInt8} (h : (Update.delstr m s).run r = some r') :
    (r.keywords m).del s = some (r'.keywords m) ∧ r'.keywords (!m) = r.keywords (!m) ∧
      ∀ monitor, r'.rules monitor = r.rules monitor := by
  cases m
  all_goals
    rw [Update.run] at h
    obtain ⟨g, hCall, rfl⟩ := onAutomata_inv h
    obtain ⟨kw, hDel, hRes⟩ := Option.bind_eq_some_iff.mp hCall
    obtain rfl := Option.some.inj hRes
    exact ⟨hDel, rfl, fun _ => rfl⟩

/-- `add_query_rule` and `add_query_rule_N` add the words and the rule. -/
theorem run_addQueryRule {m : Bool} {query : List UInt8}
    (h : (Update.addQueryRule m query).run r = some r') :
    ∃ qe, parseQuery query = some qe ∧
      qe.query.foldlM Buffers.add (r.keywords m) = some (r'.keywords m) ∧
      r'.keywords (!m) = r.keywords (!m) ∧ r'.rules m = r.rules m ++ [some qe] ∧
      r'.rules (!m) = r.rules (!m) := by
  cases m with
  | false =>
    replace h : Rules.addQueryRule r query = some r' := h
    cases hQuery : parseQuery query with
    | none => simp [addQueryRule_unparsed r hQuery] at h
    | some qe =>
      obtain ⟨kw, hWords, rfl⟩ := addQueryRule_eq hQuery h
      exact ⟨qe, rfl, hWords, rfl, rfl, rfl⟩
  | true =>
    replace h : Rules.addQueryRuleN r query = some r' := h
    cases hQuery : parseQuery query with
    | none => simp [addQueryRuleN_unparsed r hQuery] at h
    | some qe =>
      obtain ⟨kwN, hWords, rfl⟩ := addQueryRuleN_eq hQuery h
      exact ⟨qe, rfl, hWords, rfl, rfl, rfl⟩

theorem run_delQueryRule {m : Bool} {query : List UInt8}
    (h : (Update.delQueryRule m query).run r = some r') :
    (∀ monitor, r'.keywords monitor = r.keywords monitor) ∧
    r'.rules m = (r.rules m).del query ∧
      r'.rules (!m) = r.rules (!m) := by
  cases m <;> obtain rfl := Option.some.inj h <;> exact ⟨fun _ => rfl, rfl, rfl⟩

theorem run_url {s : List UInt8} (h : (Update.addurl s).run r = some r' ∨
    (Update.delurl s).run r = some r') (monitor : Bool) :
    r'.keywords monitor = r.keywords monitor ∧ r'.rules monitor = r.rules monitor := by
  rcases h with h | h
  all_goals
    rw [Update.run] at h
    obtain ⟨g, hCall, rfl⟩ := onAutomata_inv h
    obtain ⟨url, -, hRes⟩ := Option.bind_eq_some_iff.mp hCall
    obtain rfl := Option.some.inj hRes
    exact ⟨rfl, rfl⟩

theorem eq_not_of_ne {m monitor : Bool} (h : m ≠ monitor) : monitor = !m := by
  cases m <;> cases monitor <;> simp_all

theorem Update.run_keywords (h : u.run r = some r') (monitor : Bool) :
    (u.words monitor).foldlM Buffers.add (r.keywords monitor) = some (r'.keywords monitor) ∨
      ∃ s, u = .delstr monitor s ∧ (r.keywords monitor).del s = some (r'.keywords monitor) := by
  cases u with
  | addstr m s =>
    obtain ⟨hAdd, hOther, -⟩ := run_addstr h
    refine Or.inl ?_
    by_cases hm : m = monitor
    · subst hm
      simp [Update.words, hAdd]
    · rw [Update.words, if_neg hm, eq_not_of_ne hm, hOther]
      rfl
  | delstr m s =>
    obtain ⟨hDel, hOther, -⟩ := run_delstr h
    by_cases hm : m = monitor
    · subst hm
      exact Or.inr ⟨s, rfl, hDel⟩
    · refine Or.inl ?_
      rw [eq_not_of_ne hm, hOther]
      rfl
  | addQueryRule m query =>
    obtain ⟨qe, hQuery, hWords, hOther, -⟩ := run_addQueryRule h
    refine Or.inl ?_
    by_cases hm : m = monitor
    · subst hm
      rw [Update.words, if_pos rfl, hQuery]
      exact hWords
    · rw [Update.words, if_neg hm, eq_not_of_ne hm, hOther]
      rfl
  | delQueryRule m query =>
    rw [(run_delQueryRule h).1]
    exact Or.inl rfl
  | addurl s =>
    rw [(run_url (Or.inl h) monitor).1]
    exact Or.inl rfl
  | delurl s =>
    rw [(run_url (Or.inr h) monitor).1]
    exact Or.inl rfl

/-- An update adds rules to the table, or deletes the rules with a text. -/
theorem Update.run_rules (h : u.run r = some r') (monitor : Bool) :
    (∃ rules, r'.rules monitor = r.rules monitor ++ rules) ∨
      ∃ query, u = .delQueryRule monitor query ∧
        r'.rules monitor = (r.rules monitor).del query := by
  have hSame : r'.rules monitor = r.rules monitor →
      ∃ rules, r'.rules monitor = r.rules monitor ++ rules := fun heq => ⟨[], by simp [heq]⟩
  cases u with
  | addstr m s => exact Or.inl (hSame ((run_addstr h).2.2 monitor))
  | delstr m s => exact Or.inl (hSame ((run_delstr h).2.2 monitor))
  | addQueryRule m query =>
    obtain ⟨qe, -, -, -, hRules, hOther⟩ := run_addQueryRule h
    refine Or.inl ?_
    by_cases hm : m = monitor
    · exact hm ▸ ⟨_, hRules⟩
    · exact hSame (eq_not_of_ne hm ▸ hOther)
  | delQueryRule m query =>
    obtain ⟨-, hRules, hOther⟩ := run_delQueryRule h
    by_cases hm : m = monitor
    · subst hm
      exact Or.inr ⟨query, rfl, hRules⟩
    · exact Or.inl (hSame (eq_not_of_ne hm ▸ hOther))
  | addurl s => exact Or.inl (hSame (run_url (Or.inl h) monitor).2)
  | delurl s => exact Or.inl (hSame (run_url (Or.inr h) monitor).2)

theorem Update.run_linked (h : u.run r = some r') {monitor : Bool}
    (hLinked : Linked (r.keywords monitor)) : Linked (r'.keywords monitor) := by
  rcases u.run_keywords h monitor with hAdd | ⟨s, -, hDel⟩
  · rcases (foldlM_add_listed hAdd).1 with ⟨-, heq⟩ | hCompiled
    · rwa [heq]
    · exact Or.inl hCompiled.searches
  · exact Or.inl (del_listed hDel).1

end Updates

/-! ### The invariant -/

/-- The automata follow their lists, the array of keywords has room, and the slots that may still be
read hold rules. -/
structure System.Inv (s : System) : Prop where
  linked : ∀ monitor, Linked (s.stores.keywords monitor)
  room : ∀ monitor i qe ra, s.matcher.phase = .collect monitor i qe ra →
    ∃ k ≤ ra, acsmSearch (s.stores.keywords monitor).a (cstr s.matcher.request.comment) = some k
  rules : ∀ monitor, ∀ i ∈ s.matcher.pending monitor,
    ∃ qe, (s.stores.rules monitor)[i]? = some (some qe)

theorem System.start_inv (c : ConnectionInfo) : (System.start c).Inv where
  linked monitor := Or.inr (by cases monitor <;> rfl)
  room _ _ _ _ h := nomatch h
  rules monitor i hi := by cases monitor <;> cases hi

/-- What the invariant is for. -/
theorem System.Inv.safe {s : System} (h : s.Inv) : s.Safe := by
  unfold System.Safe
  split
  · rename_i monitor i qe ra hPhase
    intro kw hKw
    obtain ⟨k, hLe, hCount⟩ := h.room _ _ _ _ hPhase
    rw [acsmSearch_of_kw hKw] at hCount
    exact Option.some.inj hCount ▸ hLe
  · rename_i monitor i slots hPhase
    exact h.rules monitor i (by simp [Matcher.pending, hPhase])
  · trivial

theorem System.Inv.update {s : System} {u : Update} {r : Stores} (h : s.Inv)
    (hHarmless : s.Harmless (.update u)) (hRun : u.run s.stores = some r) :
    System.Inv { s with stores := r } := by
  refine ⟨fun monitor => u.run_linked hRun (h.linked monitor), ?_, ?_⟩
  · intro monitor i qe ra hPhase
    obtain ⟨k, hLe, hCount⟩ := h.room monitor i qe ra hPhase
    rcases u.run_keywords hRun monitor with hAdd | ⟨w, hDelstr, hDel⟩
    · refine ⟨k, hLe, ?_⟩
      rcases hHarmless.1 monitor i qe ra hPhase with ⟨hWords, -⟩ | ⟨hBlank, hWords⟩
      · rw [hWords] at hAdd
        rw [← Option.some.inj hAdd]
        exact hCount
      · exact foldlM_add_count (h.linked monitor) hBlank hWords hCount hAdd
    · obtain ⟨hBlank, -⟩ := (hHarmless.1 monitor i qe ra hPhase).resolve_left
        fun hLeaves => hLeaves.2 w hDelstr
      obtain ⟨k', hLe', hCount'⟩ := del_count (h.linked monitor) hBlank hCount hDel
      exact ⟨k', hLe'.trans hLe, hCount'⟩
  · intro monitor i hi
    obtain ⟨qe, hqe⟩ := h.rules monitor i hi
    rcases u.run_rules hRun monitor with ⟨rules, hRules⟩ | ⟨query, hDelete, hRules⟩
    · refine ⟨qe, ?_⟩
      rw [hRules, List.getElem?_append_left (List.getElem?_eq_some_iff.mp hqe).1, hqe]
    · refine ⟨qe, ?_⟩
      have hText := hHarmless.2 monitor query hDelete i hi qe hqe
      rw [hRules, QueryTable.del, List.getElem?_map, hqe]
      simp [Option.filter, hText]

/-- What a step of the matching thread can do. -/
inductive Matcher.Next (r : Stores) (t : Matcher) : Matcher → Prop
  | urls (matched : Nat) (at_ : t.phase = .url) :
      Next r t { t with matched, phase := .slot false 0 }
  | rule {m : Bool} {i : Nat} (qe : QueryExpression) (at_ : t.phase = .slot m i)
      (slot : (r.rules m)[i]? = some (some qe)) : Next r t { t with phase := .count m i qe }
  | empty {m : Bool} {i : Nat} (at_ : t.phase = .slot m i) :
      Next r t { t with phase := .slot m (i + 1) }
  | scanned {m : Bool} {i : Nat} (at_ : t.phase = .slot m i) :
      Next r t { t with phase := if m then .trie else .slot true 0 }
  | counted {m : Bool} {i : Nat} {qe : QueryExpression} (ra : Nat) (at_ : t.phase = .count m i qe)
      (count : acsmSearch (r.keywords m).a (cstr t.request.comment) = some ra) :
      Next r t { t with phase := .collect m i qe ra }
  | collected {m : Bool} {i : Nat} {qe : QueryExpression} {ra : Nat} {hit : Bool} {t₁ : Matcher}
      (at_ : t.phase = .collect m i qe ra) (record : t.record m hit i = some t₁) :
      Next r t { t₁ with phase := .slot m (i + 1) }
  | clear (at_ : t.phase = .trie) : Next r t { t with phase := .done }
  | hits (m : Bool) (at_ : t.phase = .trie) : Next r t { t with phase := .read m (t.list m) }
  | text {m : Bool} {i : Nat} {slots : List Nat} (at_ : t.phase = .read m (i :: slots)) :
      Next r t { t with phase := .read m slots }
  | finished {m : Bool} (at_ : t.phase = .read m []) : Next r t { t with phase := .done }
  | rests (at_ : t.phase = .done) : Next r t t

section Advance

variable {r : Stores} {t t' : Matcher} {m : Bool} {i : Nat}

theorem Matcher.list_record {hit : Bool} (h : t.record m hit i = some t') (monitor : Bool) :
    t'.list monitor = if hit = true ∧ m = monitor then t.list monitor ++ [i]
      else t.list monitor := by
  unfold Matcher.record at h
  split at h
  · rename_i hHit
    split at h
    · obtain rfl := Option.some.inj h
      cases hit <;> cases m <;> cases monitor <;> first | rfl | cases hHit
    · cases h
  · rename_i hHit
    obtain rfl := Option.some.inj h
    exact (if_neg fun hBoth => hHit hBoth.1).symm

theorem Matcher.advance_next (hRun : t.advance r = some t') : t.Next r t' := by
  unfold Matcher.advance at hRun
  split at hRun
  case h_1 hPhase =>
    obtain ⟨matched, -, hRes⟩ := Option.bind_eq_some_iff.mp hRun
    exact Option.some.inj hRes ▸ .urls matched hPhase
  case h_2 hPhase =>
    split at hRun
    all_goals obtain rfl := Option.some.inj hRun
    · exact .rule _ hPhase ‹_›
    · exact .empty hPhase
    · exact .scanned hPhase
  case h_3 hPhase =>
    obtain ⟨ra, hCount, hRes⟩ := Option.bind_eq_some_iff.mp hRun
    exact Option.some.inj hRes ▸ .counted ra hPhase hCount
  case h_4 hPhase =>
    obtain ⟨kw, -, hRest⟩ := Option.bind_eq_some_iff.mp hRun
    split at hRest
    · cases hRest
    · obtain ⟨hit, -, hRest⟩ := Option.bind_eq_some_iff.mp hRest
      obtain ⟨t₁, hRecord, hRes⟩ := Option.bind_eq_some_iff.mp hRest
      exact Option.some.inj hRes ▸ .collected hPhase hRecord
  case h_5 hPhase =>
    obtain ⟨checked, -, hRest⟩ := Option.bind_eq_some_iff.mp hRun
    dsimp only at hRest
    split_ifs at hRest
    all_goals obtain rfl := Option.some.inj hRest
    all_goals first
      | exact .clear hPhase
      | exact .hits true hPhase
      | exact .hits false hPhase
  case h_6 hPhase =>
    split at hRun
    · exact Option.some.inj hRun ▸ .text hPhase
    · cases hRun
  case h_7 hPhase => exact Option.some.inj hRun ▸ .finished hPhase
  case h_8 hPhase => exact Option.some.inj hRun ▸ .rests hPhase

/-- Each slot that may still be read after a step could be read before, or holds a rule. -/
theorem Matcher.Next.pending (h : t.Next r t') {monitor : Bool} {j : Nat}
    (hj : j ∈ t'.pending monitor) :
    j ∈ t.pending monitor ∨ ∃ qe, (r.rules monitor)[j]? = some (some qe) := by
  cases h with
  | @rule m i qe at_ slot =>
    simp only [Matcher.pending, at_] at hj ⊢
    split at hj
    · rename_i hm
      subst hm
      rcases List.mem_append.mp hj with hj | hj
      · exact Or.inl hj
      · exact Or.inr ⟨qe, List.mem_singleton.mp hj ▸ slot⟩
    · exact Or.inl hj
  | @scanned m i at_ =>
    left
    simp only [Matcher.pending, at_]
    cases m <;> exact hj
  | @collected m i qe ra hit t₁ at_ record =>
    left
    replace hj : j ∈ t₁.list monitor := hj
    rw [Matcher.list_record record] at hj
    simp only [Matcher.pending, at_]
    by_cases hm : m = monitor
    · rw [if_pos hm]
      split at hj
      · exact hj
      · exact List.mem_append_left _ hj
    · rw [if_neg fun h => hm h.2] at hj
      rwa [if_neg hm]
  | hits m at_ =>
    left
    simp only [Matcher.pending, at_] at hj ⊢
    split at hj
    · rename_i hm
      exact hm ▸ hj
    · cases hj
  | @text m i slots at_ =>
    left
    simp only [Matcher.pending, at_] at hj ⊢
    split at hj
    · rw [if_pos ‹_›]
      exact List.mem_cons_of_mem _ hj
    · cases hj
  | clear at_ => cases hj
  | finished at_ => cases hj
  | rests at_ => exact Or.inl hj
  | urls matched at_ | empty at_ | counted ra at_ count =>
    left
    simp only [Matcher.pending, at_]
    exact hj

/-- Only `kw_match` comes before `get_keywords`, and the array has the size that it returned. -/
theorem Matcher.Next.collect {qe : QueryExpression} {ra : Nat} (h : t.Next r t')
    (hPhase : t'.phase = .collect m i qe ra) : t'.request = t.request ∧
    acsmSearch (r.keywords m).a (cstr t.request.comment) = some ra := by
  cases h with
  | counted ra' at_ count =>
    cases hPhase
    exact ⟨rfl, count⟩
  | @scanned m => cases m <;> cases hPhase
  | rests at_ => cases at_.symm.trans hPhase
  | _ => cases hPhase

end Advance

theorem System.Inv.advance {s : System} {t : Matcher} (h : s.Inv)
    (hRun : s.matcher.advance s.stores = some t) : System.Inv { s with matcher := t } := by
  refine ⟨h.linked, fun monitor i qe ra hPhase => ?_, fun monitor i hi => ?_⟩
  · obtain ⟨hRequest, hCount⟩ := (Matcher.advance_next hRun).collect hPhase
    exact ⟨ra, Nat.le_refl ra, hRequest ▸ hCount⟩
  · exact ((Matcher.advance_next hRun).pending hi).elim (h.rules monitor i) id

/-- In every state that a run of updates and steps of the matching thread reaches, when each update
is harmless where it comes, the next step of the thread is safe. -/
theorem updates_interleave_safely (c : ConnectionInfo) (s : System)
    (h : Reaches System.step System.Harmless (System.start c) s) : s.Safe := by
  refine (h.invariant (P := System.Inv) (System.start_inv c)
    fun s e s' hs hHarmless hStep => ?_).safe
  cases e with
  | update u =>
    obtain ⟨r, hRun, hRes⟩ := Option.bind_eq_some_iff.mp hStep
    exact Option.some.inj hRes ▸ hs.update hHarmless hRun
  | advance =>
    obtain ⟨t, hRun, hRes⟩ := Option.bind_eq_some_iff.mp hStep
    exact Option.some.inj hRes ▸ hs.advance hRun

/-- After `add_query_rule("a")`, the thread counts one match in the text `a`. -/
theorem reaches_collect :
    ∃ r qe, Reaches System.step System.Harmless (System.start ⟨[], [], 0, [], [97], []⟩)
        ⟨r, ⟨⟨[], [], 0, [], [97], []⟩, .collect false 0 qe 1, 0, [], []⟩⟩ ∧
      r.automata.kw.b.acsmPatterns = [[97]] := by
  obtain ⟨r, hAdd⟩ := addQueryRule_total noRules [97] (by decide) (by decide)
  obtain ⟨qe, hParse⟩ := Option.isSome_iff_exists.mp (show (parseQuery [97]).isSome by decide)
  have hWords : qe.query = [[97]] := by
    have hMap : (parseQuery [97]).map QueryExpression.query = some [[97]] := by decide
    rw [hParse] at hMap
    exact Option.some.inj hMap
  obtain ⟨kw, hKw, rfl⟩ := addQueryRule_eq hParse hAdd
  rw [hWords, List.foldlM_cons] at hKw
  obtain ⟨m, hStep, hRest⟩ := Option.bind_eq_some_iff.mp hKw
  obtain rfl := Option.some.inj hRest
  obtain ⟨hCompiled, hList⟩ := add_listed hStep
  replace hList : m.b.acsmPatterns = [[97]] := hList
  rw [hList] at hCompiled
  have hCount : acsmSearch m.a [97] = some 1 := by
    rw [acsmSearch_eq hCompiled.searches (by decide)]
    decide
  refine ⟨{ noRules with automata := { noRules.automata with kw := m }
                         table := noRules.table ++ [some qe] }, qe, ?_, hList⟩
  have h₁ : Reaches System.step System.Harmless
    (System.start ⟨[], [], 0, [], [97], []⟩) _ := .start
  have h₂ := h₁.step (a := Event.update (.addQueryRule false [97]))
    ⟨fun _ _ _ _ h => (nomatch h), fun _ _ h => (nomatch h)⟩
    (show _ = some ⟨_, _⟩ by
      rw [System.step, Update.run, Call.run]
      rw [show (System.start ⟨[], [], 0, [], [97], []⟩).stores = noRules from rfl, hAdd]
      rfl)
  have h₃ := h₂.step (a := Event.advance) trivial rfl
  have h₄ := h₃.step (a := Event.advance) trivial rfl
  exact h₄.step (a := Event.advance) trivial (by
    show ((acsmSearch m.a [97]).bind _).bind _ = _
    rw [hCount]
    rfl)

/-- An update that adds a word without an occurrence in the text does no harm. -/
theorem updates_interleave_safely_addstr :
    ∃ s, Reaches System.step System.Harmless (System.start ⟨[], [], 0, [], [97], []⟩) s ∧
      (∃ qe, s.matcher.phase = .collect false 0 qe 1) ∧
      s.stores.automata.kw.b.acsmPatterns = [[98], [97]] ∧ s.Safe := by
  obtain ⟨r, qe, hReaches, hList⟩ := reaches_collect
  obtain ⟨m, hAdd⟩ :=
    publish_total ⟨r.automata.kw.a, acsmAddPattern r.automata.kw.b (cstr [98])⟩
  have hListed := (add_listed (s := [98]) hAdd).2
  let s : System := ⟨{ r with automata := { r.automata with kw := m } },
    ⟨⟨[], [], 0, [], [97], []⟩, .collect false 0 qe 1, 0, [], []⟩⟩
  have hNext : Reaches System.step System.Harmless _ s :=
    hReaches.step (a := Event.update (.addstr false [98])) ⟨fun monitor i qe' ra hPhase => by
      cases hPhase
      refine Or.inr ⟨?_, show ∀ w ∈ [[98]], ¬cstr w <:+: cstr [97] by decide⟩
      show [] ∉ r.automata.kw.b.acsmPatterns
      rw [hList]
      decide, fun _ _ h => (nomatch h)⟩ (by
      show ((r.onAutomata (StringMatcher.addstr · [98])).bind _) = _
      rw [Stores.onAutomata, StringMatcher.addstr, Buffers.add, hAdd]
      rfl)
  refine ⟨s, hNext, ⟨qe, rfl⟩, ?_, updates_interleave_safely _ _ hNext⟩
  show m.b.acsmPatterns = _
  rw [hListed, hList]
  decide

/-- Another copy of the word `a` is added between `kw_match` and `get_keywords`. -/
theorem updates_overflow_keywords :
    ¬∀ (c : ConnectionInfo) (s : System),
      Reaches System.step (fun _ _ => True) (System.start c) s → s.Safe := by
  intro h
  obtain ⟨r, qe, hReaches, hList⟩ := reaches_collect
  obtain ⟨m, hAdd⟩ :=
    publish_total ⟨r.automata.kw.a, acsmAddPattern r.automata.kw.b (cstr [97])⟩
  obtain ⟨hCompiled, hListed⟩ := add_listed (s := [97]) hAdd
  rw [hList] at hListed
  rw [hListed] at hCompiled
  let s : System := ⟨{ r with automata := { r.automata with kw := m } },
    ⟨⟨[], [], 0, [], [97], []⟩, .collect false 0 qe 1, 0, [], []⟩⟩
  have hNext : Reaches System.step (fun _ _ => True) _ s :=
    (hReaches.mono fun _ _ _ => trivial).step (a := Event.update (.addstr false [97])) trivial (by
      show ((r.onAutomata (StringMatcher.addstr · [97])).bind _) = _
      rw [Stores.onAutomata, StringMatcher.addstr, Buffers.add, hAdd]
      rfl)
  have hSafe := h _ _ hNext
  obtain ⟨kw, hKw, -⟩ := acsmSearchKw_spec hCompiled.searches [97]
  have hCount := acsmSearch_of_kw hKw
  rw [acsmSearch_eq hCompiled.searches (by decide)] at hCount
  have hLength : kw.length ≤ 1 := hSafe kw hKw
  rw [← Option.some.inj hCount] at hLength
  exact absurd hLength (by decide)

end Shutter.Rules
