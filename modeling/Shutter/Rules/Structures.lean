import Shutter.StringMatcher
import Shutter.Rules.Down

/-! The structures that the updates and the searches of the automata find.  A deletion reads the
head of the list of the spare automaton, and a search reads the state table of the active one, which
is missing before the first update. -/

namespace Shutter.Rules

open Shutter.Acsm Shutter.Acch Shutter.Library Shutter.StringMatcher

/-- The pairs of `string_matcher.c`, and the pair of `down_string_match.c`. -/
structure Matchers where
  strings : Automata
  down : Down

/-- The automata behind `init_ac` and `down_ac`, with empty tables in the database. -/
def Matchers.init : Matchers := ⟨initAc, downAc⟩

namespace Matchers

/-- A call that updates an automaton or searches with it. -/
inductive Call where
  | addstr (s : List UInt8)
  | delstr (s : List UInt8)
  | addurl (s : List UInt8)
  | delurl (s : List UInt8)
  | addStr (s : List UInt8)
  | delStr (s : List UInt8)
  | kwMatch (s : List UInt8)
  | urlMatch (s : List UInt8)
  | keywordMatch (l : Nat → UInt8) (dbuf : Nat → UInt16) (len : Nat) (memory : Memory)

/-- One call, which fails where it reads the head of an empty list or a table that is missing.  A
`keyword_match` over an automaton with a table can fail only before the start of `win`. -/
def Call.run (g : Matchers) : Call → Option Matchers
  | .addstr s => (StringMatcher.addstr g.strings s).map fun strings => { g with strings }
  | .delstr s => (StringMatcher.delstr g.strings s).map fun strings => { g with strings }
  | .addurl s => (StringMatcher.addurl g.strings s).map fun strings => { g with strings }
  | .delurl s => (StringMatcher.delurl g.strings s).map fun strings => { g with strings }
  | .addStr s => (Rules.addStr g.down s).map fun down => { g with down }
  | .delStr s => (Rules.delStr g.down s).map fun down => { g with down }
  | .kwMatch s => (StringMatcher.kwMatch g.strings s).map fun _ => g
  | .urlMatch s => (StringMatcher.urlMatch g.strings s).map fun _ => g
  | .keywordMatch l dbuf len memory =>
    if g.down.m.acsmStateTable.isSome then some g
    else (Rules.keywordMatch g.down l dbuf len memory).map fun _ => g

/-- The string of an update. -/
def Call.string : Call → List UInt8
  | .addstr s | .delstr s | .addurl s | .delurl s | .addStr s | .delStr s => s
  | .kwMatch _ | .urlMatch _ | .keywordMatch .. => []

/-! ### The strings held -/

/-- The strings that a pair of automata holds, or nothing before its first update. -/
abbrev Held := Option (List Pattern)

/-- The strings after one more is added. -/
def Held.add (h : Held) (s : List UInt8) : Held := some (s :: h.getD [])

/-- The strings after one is deleted. -/
def Held.del (h : Held) (s : List UInt8) : Held := some ((h.getD []).erase s)

/-- The strings of the three pairs. -/
structure Strings where
  kw : Held
  url : Held
  down : Held

/-- The strings that a call leaves. -/
def Call.held (h : Strings) : Call → Strings
  | .addstr s => { h with kw := h.kw.add s }
  | .delstr s => { h with kw := h.kw.del s }
  | .addurl s => { h with url := h.url.add s }
  | .delurl s => { h with url := h.url.del s }
  | .addStr s => { h with down := h.down.add s }
  | .delStr s => { h with down := h.down.del s }
  | .kwMatch _ | .urlMatch _ | .keywordMatch .. => h

/-- The strings after a sequence of calls. -/
def held (calls : List Call) : Strings := calls.foldl Call.held ⟨none, none, none⟩

theorem held_concat (calls : List Call) (call : Call) :
    held (calls ++ [call]) = call.held (held calls) := by
  simp [held]

/-- A deletion finds a string in its list, and a search with anything to search comes behind an
update of its automaton. -/
def Call.Allowed (h : Strings) : Call → Prop
  | .addstr _ | .addurl _ | .addStr _ => True
  | .delstr _ => h.kw.getD [] ≠ []
  | .delurl _ => h.url.getD [] ≠ []
  | .delStr _ => h.down.getD [] ≠ []
  | .kwMatch s => h.kw.isSome ∨ cstr s = []
  | .urlMatch s => h.url.isSome ∨ cstr s = []
  | .keywordMatch _ _ len _ => h.down.isSome ∨ len = 0

/-! ### One pair -/

/-- The spare automaton has the strings, and the active one is compiled from them, if any update has
been made. -/
structure Keeps (a b : AcsmStruct) (h : Held) : Prop where
  spare : b.acsmPatterns = h.getD []
  terminated : ∀ p ∈ h.getD [], 0 ∉ p
  compiled : a.acsmStateTable.isSome ↔ h.isSome

/-- The pair of `string_matcher.c` has the strings. -/
structure KeepsStrings (m : Buffers) (h : Held) : Prop extends Keeps m.a m.b h where
  searches : ∀ ps, h = some ps → m.a.Searches ps

variable {m : Buffers} {d : Down} {h : Held} {s : List UInt8}

theorem publish_keeps {ps : List Pattern} (hSpare : m.b.acsmPatterns = ps)
    (hTerminated : ∀ p ∈ ps, 0 ∉ p) : ∃ m', m.publish = some m' ∧
    KeepsStrings m' (some ps) := by
  obtain ⟨b, hCompile, -, hSearches⟩ := acsmCompile_searches m.b
  refine ⟨⟨b, { m.a with acsmPatterns := m.b.acsmPatterns }⟩, ?_, ?_⟩
  · rw [Buffers.publish, hCompile]
    rfl
  · rw [hSpare] at hSearches
    refine ⟨⟨hSpare, hTerminated, ?_⟩, ?_⟩
    · obtain ⟨_, _, hTable, _⟩ := hSearches
      simp [hTable]
    · rintro ps' hSome
      obtain rfl := Option.some.inj hSome
      exact hSearches

theorem KeepsStrings.add (hKeeps : KeepsStrings m h) (hs : 0 ∉ s) :
    ∃ m', m.add s = some m' ∧ KeepsStrings m' (h.add s) := by
  apply publish_keeps
  · simp [acsmAddPattern, hKeeps.spare, cstr_eq hs]
  · intro p hp
    rcases List.mem_cons.mp hp with rfl | hp
    · exact hs
    · exact hKeeps.terminated p hp

theorem KeepsStrings.del (hKeeps : KeepsStrings m h) (hs : 0 ∉ s) (hNonempty : h.getD [] ≠ []) :
    ∃ m', m.del s = some m' ∧ KeepsStrings m' (h.del s) := by
  have hDel : acsmDelPattern m.b (cstr s) =
      some { m.b with acsmPatterns := (h.getD []).erase s } := by
    rw [acsmDelPattern, hKeeps.spare, cstr_eq hs]
    obtain ⟨p, ps, hList⟩ := List.exists_cons_of_ne_nil hNonempty
    rw [← unlink_eq_erase hs hKeeps.terminated, hList]
  rw [Buffers.del, hDel]
  apply publish_keeps (m := ⟨m.a, { m.b with acsmPatterns := (h.getD []).erase s }⟩) rfl
  intro p hp
  exact hKeeps.terminated p (List.mem_of_mem_erase hp)

theorem KeepsStrings.del_none (hKeeps : KeepsStrings m h) (hEmpty : h.getD [] = []) :
    m.del s = none := by
  rw [Buffers.del, acsmDelPattern, hKeeps.spare, hEmpty]
  rfl

/-- A search ends if the automaton has been compiled or the text is empty, and only then. -/
theorem KeepsStrings.search (hKeeps : KeepsStrings m h) (t : List UInt8) :
    (∃ n, acsmSearch m.a t = some n) ↔ h.isSome ∨ t = [] := by
  cases h with
  | some ps =>
    obtain ⟨kws, hKws, -⟩ := acsmSearchKw_spec (hKeeps.searches ps rfl) t
    exact ⟨fun _ => Or.inl rfl, fun _ => ⟨kws.length, acsmSearch_of_kw hKws⟩⟩
  | none =>
    have hTable : m.a.acsmStateTable = none := by simpa using hKeeps.compiled
    cases t with
    | nil => exact ⟨fun _ => Or.inr rfl, fun _ => ⟨0, rfl⟩⟩
    | cons c t => simp [acsmSearch, AcsmStruct.visit, hTable]

/-- The pair of `down_string_match.c` has the strings. -/
abbrev KeepsDown (d : Down) (h : Held) : Prop := Keeps d.m.toAcsmStruct d.n.toAcsmStruct h

theorem Down.Published.keeps {ps : List Pattern} (hPublished : d.Published ps)
    (hTerminated : ∀ p ∈ ps, 0 ∉ p) : KeepsDown d (some ps) := by
  obtain ⟨b, -, hTable, -⟩ := hPublished.compiled
  exact ⟨hPublished.spare, hTerminated, by simp [hTable]⟩

theorem addStr_keeps (hKeeps : KeepsDown d h) (hs : 0 ∉ s) :
    ∃ d', Rules.addStr d s = some d' ∧ KeepsDown d' (h.add s) := by
  obtain ⟨d', hRun, hPublished⟩ := addStr_published hKeeps.spare hs
  refine ⟨d', hRun, Down.Published.keeps hPublished ?_⟩
  intro p hp
  rcases List.mem_cons.mp hp with rfl | hp
  · exact hs
  · exact hKeeps.terminated p hp

theorem delStr_keeps (hKeeps : KeepsDown d h) (hs : 0 ∉ s) (hNonempty : h.getD [] ≠ []) :
    ∃ d', Rules.delStr d s = some d' ∧ KeepsDown d' (h.del s) := by
  obtain ⟨d', hRun, hPublished⟩ :=
    delStr_published hKeeps.spare hNonempty hKeeps.terminated hs
  refine ⟨d', hRun, Down.Published.keeps hPublished ?_⟩
  intro p hp
  exact hKeeps.terminated p (List.mem_of_mem_erase hp)

theorem delStr_none (hKeeps : KeepsDown d h) (hEmpty : h.getD [] = []) :
    Rules.delStr d s = none := by
  rw [Rules.delStr, acsmdelPattern, hKeeps.spare, hEmpty]
  rfl

/-- `acch` over an automaton without a table ends if there are no tokens, and only then. -/
theorem keywordMatch_isSome (hTable : d.m.acsmStateTable = none) (l : Nat → UInt8)
    (dbuf : Nat → UInt16) (len : Nat) (memory : Memory) :
    (∃ n, Rules.keywordMatch d l dbuf len memory = some n) ↔ len = 0 := by
  cases len with
  | zero => exact ⟨fun _ => rfl, fun _ => ⟨0, rfl⟩⟩
  | succ len =>
    have hScan : ∀ state c, (scanner d.m).scan state c = none := by
      intro state c
      simp [scanner, scanAC, fsm, hTable]
    have hDept : ∀ state, (scanner d.m).dept state = none := by
      intro state
      simp [scanner, hTable]
    have hToken : ∀ (a : Window Nat) l dbuf, a.token (scanner d.m) l dbuf =
      (none : Option _) := by
      intro a l dbuf
      unfold Window.token
      split
      · simp only [Window.literal, hScan]
        rfl
      · simp only [Window.copy, Window.leftBorder, hDept]
        rfl
    have hNone : Rules.keywordMatch d l dbuf (len + 1) memory = none := by
      rw [Rules.keywordMatch, acch, Acch.search, Nat.sub_zero, Window.tokens, hToken]
      rfl
    simp [hNone]

/-! ### Runs -/

/-- Each pair has its strings. -/
structure KeepsAll (g : Matchers) (h : Strings) : Prop where
  kw : KeepsStrings g.strings.kw h.kw
  url : KeepsStrings g.strings.url h.url
  down : KeepsDown g.down h.down

theorem init_keeps : KeepsAll init (held []) := by
  have hNew : Keeps acsmNew acsmNew none :=
    ⟨rfl, fun _ hp => absurd hp List.not_mem_nil, Iff.rfl⟩
  have hSearches : ∀ ps, none = some ps → acsmNew.Searches ps :=
    fun _ hSome => (Option.some_ne_none _ hSome.symm).elim
  exact ⟨⟨hNew, hSearches⟩, ⟨hNew, hSearches⟩, hNew⟩

variable {g : Matchers} {strings : Strings}

/-- A call that is allowed ends, and leaves the strings that it should. -/
theorem KeepsAll.run (hKeeps : KeepsAll g strings) {call : Call} (hCall : 0 ∉ call.string)
    (hAllowed : call.Allowed strings) :
    ∃ g', call.run g = some g' ∧ KeepsAll g' (call.held strings) := by
  obtain ⟨hKw, hUrl, hDown⟩ := hKeeps
  cases call with
  | addstr s =>
    obtain ⟨m, hRun, hm⟩ := hKw.add (s := s) hCall
    exact ⟨{ g with strings := { g.strings with kw := m } },
      by simp [Call.run, StringMatcher.addstr, hRun], hm, hUrl, hDown⟩
  | delstr s =>
    obtain ⟨m, hRun, hm⟩ := hKw.del (s := s) hCall hAllowed
    exact ⟨{ g with strings := { g.strings with kw := m } },
      by simp [Call.run, StringMatcher.delstr, hRun], hm, hUrl, hDown⟩
  | addurl s =>
    obtain ⟨m, hRun, hm⟩ := hUrl.add (s := s) hCall
    exact ⟨{ g with strings := { g.strings with url := m } },
      by simp [Call.run, StringMatcher.addurl, hRun], hKw, hm, hDown⟩
  | delurl s =>
    obtain ⟨m, hRun, hm⟩ := hUrl.del (s := s) hCall hAllowed
    exact ⟨{ g with strings := { g.strings with url := m } },
      by simp [Call.run, StringMatcher.delurl, hRun], hKw, hm, hDown⟩
  | addStr s =>
    obtain ⟨d, hRun, hd⟩ := addStr_keeps (s := s) hDown hCall
    exact ⟨{ g with down := d }, by simp [Call.run, hRun], hKw, hUrl, hd⟩
  | delStr s =>
    obtain ⟨d, hRun, hd⟩ := delStr_keeps (s := s) hDown hCall hAllowed
    exact ⟨{ g with down := d }, by simp [Call.run, hRun], hKw, hUrl, hd⟩
  | kwMatch s =>
    obtain ⟨n, hSearch⟩ := (hKw.search (cstr s)).mpr hAllowed
    exact ⟨g, by simp [Call.run, StringMatcher.kwMatch, hSearch], hKw, hUrl, hDown⟩
  | urlMatch s =>
    obtain ⟨n, hSearch⟩ := (hUrl.search (cstr s)).mpr hAllowed
    exact ⟨g, by simp [Call.run, StringMatcher.urlMatch, hSearch], hKw, hUrl, hDown⟩
  | keywordMatch l dbuf len memory =>
    refine ⟨g, ?_, hKw, hUrl, hDown⟩
    by_cases hTable : g.down.m.acsmStateTable.isSome
    · rw [Call.run, if_pos hTable]
    · have hNone : g.down.m.acsmStateTable = none := by simpa using hTable
      have hLen : len = 0 := hAllowed.resolve_left fun hSome => hTable (hDown.compiled.mpr hSome)
      obtain ⟨n, hMatch⟩ := (keywordMatch_isSome hNone l dbuf len memory).mpr hLen
      simp [Call.run, hNone, hMatch]

theorem KeepsAll.run_none (hKeeps : KeepsAll g strings) {call : Call}
    (hAllowed : ¬call.Allowed strings) : call.run g = none := by
  obtain ⟨hKw, hUrl, hDown⟩ := hKeeps
  have hEnds : ∀ {n : Option Nat} {p : Prop}, ((∃ k, n = some k) ↔ p) → ¬p →
      n.map (fun _ => g) = none := by
    intro n p hIff hp
    rw [Option.map_eq_none_iff, Option.eq_none_iff_forall_ne_some]
    intro k hk
    exact hp (hIff.mp ⟨k, hk⟩)
  cases call with
  | addstr s => exact absurd trivial hAllowed
  | addurl s => exact absurd trivial hAllowed
  | addStr s => exact absurd trivial hAllowed
  | delstr s => simp [Call.run, StringMatcher.delstr, hKw.del_none (not_not.mp hAllowed)]
  | delurl s => simp [Call.run, StringMatcher.delurl, hUrl.del_none (not_not.mp hAllowed)]
  | delStr s => simp [Call.run, delStr_none hDown (not_not.mp hAllowed)]
  | kwMatch s => exact hEnds (hKw.search (cstr s)) hAllowed
  | urlMatch s => exact hEnds (hUrl.search (cstr s)) hAllowed
  | keywordMatch l dbuf len memory =>
    have hTable : g.down.m.acsmStateTable = none := by
      simpa using mt hDown.compiled.mp fun hSome => hAllowed (Or.inl hSome)
    simp only [Call.run, hTable, Option.isSome_none, Bool.false_eq_true, if_false]
    exact hEnds (keywordMatch_isSome hTable l dbuf len memory) fun hLen => hAllowed (Or.inr hLen)

/-- A sequence of calls finds every structure that it reads exactly when each deletion finds a
string in its list and each search with anything to search comes behind an update of its
automaton. -/
theorem calls_find_structures (calls : List Call) (hCalls : ∀ call ∈ calls, 0 ∉ call.string) :
    (∃ g, calls.foldlM Call.run init = some g) ↔
      ∀ done call rest, calls = done ++ call :: rest → call.Allowed (held done) := by
  apply foldlM_iff_allowed Call.run (fun done g => KeepsAll g (held done))
    (fun done call => call.Allowed (held done)) calls init_keeps
  · intro done call rest hSplit g hKeeps hAllowed
    rw [held_concat]
    exact hKeeps.run (hCalls call (by simp [hSplit])) hAllowed
  · exact fun done call g hKeeps hAllowed => hKeeps.run_none hAllowed

/-- The run that adds a word, searches with it and deletes it. -/
theorem calls_find_structures_add_match_del :
    ∃ g, [Call.addstr [97], .kwMatch [97, 98], .delstr [97]].foldlM Call.run init = some g := by
  apply (calls_find_structures [.addstr [97], .kwMatch [97, 98], .delstr [97]]
    (by simp [Call.string])).mpr
  intro done call rest h
  rcases done with _ | ⟨c₀, _ | ⟨c₁, _ | ⟨c₂, done⟩⟩⟩
  · obtain ⟨rfl, -⟩ := List.cons.inj h
    exact trivial
  · simp only [List.cons_append, List.cons.injEq, List.nil_append] at h
    obtain ⟨rfl, rfl, -⟩ := h
    exact Or.inl rfl
  · simp only [List.cons_append, List.cons.injEq, List.nil_append] at h
    obtain ⟨rfl, rfl, rfl, -⟩ := h
    simp [Call.Allowed, held, Call.held, Held.add]
  · simp at h

/-- A `delstr` before any `addstr` reads the head of the empty list. -/
theorem delstr_reads_empty_list :
    ¬∀ calls : List Call, (∀ call ∈ calls, 0 ∉ call.string) →
      ∃ g, calls.foldlM Call.run init = some g := by
  intro h
  obtain ⟨g, hRun⟩ := h [.delstr [97]] (by simp [Call.string])
  simp [Call.run, StringMatcher.delstr, Buffers.del, init, initAc, acsmNew, acsmDelPattern] at hRun

end Matchers

end Shutter.Rules
