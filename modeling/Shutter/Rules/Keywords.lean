import Shutter.Library.Buffer
import Shutter.Rules.Structures

/-! The keywords of a url hit.  `get_decision` allocates an entry for each match of the url
automaton, and `get_keywords` stores the matches of the keyword automaton. -/

namespace Shutter.Rules.Matchers

open Shutter.Acsm Shutter.Library Shutter.StringMatcher

/-- `kw[0]` to `kw[n - 1]`: 256 bytes each, set to zero. -/
def newKw (n : Nat) : List (List UInt8) := List.replicate n (List.replicate 256 0)

/-- The copies of `acsmSearch_kw`: the matches go to the entries of `keywords` in order, and a match
fails where there is no entry left for it or its entry is too short. -/
def storeKeywords : List (List UInt8) → List Pattern → Option (List (List UInt8))
  | keywords, [] => some keywords
  | [], _ :: _ => none
  | entry :: keywords, p :: matches_ => do
    let entry ← store entry 0 p
    let keywords ← storeKeywords keywords matches_
    some (entry :: keywords)

/-- `get_keywords` with the array of the url branch of `get_decision`, for `dr->url` matches. -/
def collectKeywords (g : Automata) (url : List UInt8) (n : Nat) :
    Option (List (List UInt8) × Nat) := do
  let matches_ ← getKeywords g url
  let kw ← storeKeywords (newKw n) matches_
  some (kw, matches_.length)

/-- `get_keywords` stores an entry for each match of the url, and leaves none empty. -/
def Collects (g : Automata) (url : List UInt8) (n : Nat) : Prop :=
  ∃ kw, collectKeywords g url n = some (kw, n) ∧ kw.length = n ∧
    ∀ entry ∈ kw, cstr entry ≠ []

/-- The keywords fit the array for `n` matches in the text `t`: there are `n` occurrences of
keywords with bytes, none of them is longer than an entry, and where the empty string is a keyword
too, every byte of the text begins a keyword. -/
def Fit (held : Held) (t : List UInt8) (n : Nat) : Prop :=
  ∃ keywords, held = some keywords ∧ occurrences (filled keywords) t = n ∧
    (∀ p ∈ keywords, p <:+: t → p.length ≤ 256) ∧
    ([] ∈ keywords → ∀ c ∈ t, PrefixOfSome keywords [c])

/-! ### The array -/

theorem length_storeKeywords {keywords kw : List (List UInt8)} {matches_ : List Pattern}
    (h : storeKeywords keywords matches_ = some kw) : kw.length = keywords.length := by
  induction matches_ generalizing keywords kw with
  | nil =>
    obtain rfl : keywords = kw := by cases keywords <;> exact Option.some.inj h
    rfl
  | cons p matches_ ih =>
    cases keywords with
    | nil => cases h
    | cons entry keywords =>
      obtain ⟨stored, -, hBind⟩ := Option.bind_eq_some_iff.mp h
      obtain ⟨rest, hRest, hSome⟩ := Option.bind_eq_some_iff.mp hBind
      obtain rfl := Option.some.inj hSome
      rw [List.length_cons, List.length_cons, ih hRest]

theorem cstr_zeros (n : Nat) : cstr (List.replicate n 0) = [] := by
  cases n <;> rfl

theorem cstr_stored {p : Pattern} (hp : 0 ∉ p) (n : Nat) :
    cstr (p ++ List.replicate n 0) = p := by
  have hBytes : ∀ c ∈ p, decide (c ≠ 0) = true := fun c hc =>
    decide_eq_true (ne_of_mem_of_not_mem hc hp)
  have hZeros : List.takeWhile (fun c : UInt8 => decide (c ≠ 0)) (List.replicate n 0) = [] :=
    cstr_zeros n
  rw [cstr, List.takeWhile_append_of_pos hBytes, hZeros, List.append_nil]

/-- All entries are filled exactly when there is a match for each, with bytes, and not too long. -/
theorem storeKeywords_filled {matches_ : List Pattern} (hMatches : ∀ p ∈ matches_, 0 ∉ p)
    (n : Nat) :
    (∃ kw, storeKeywords (newKw n) matches_ = some kw ∧ matches_.length = n ∧
      ∀ entry ∈ kw, cstr entry ≠ []) ↔
    matches_.length = n ∧ ∀ p ∈ matches_, p ≠ [] ∧ p.length ≤ 256 := by
  induction matches_ generalizing n with
  | nil =>
    cases n with
    | zero => simp [newKw, storeKeywords]
    | succ n => simp
  | cons p matches_ ih =>
    cases n with
    | zero => simp
    | succ n =>
      have hp : 0 ∉ p := hMatches p List.mem_cons_self
      have hIh := ih (fun q hq => hMatches q (List.mem_cons_of_mem _ hq)) n
      have hKw : newKw (n + 1) = List.replicate 256 0 :: newKw n := List.replicate_succ
      rw [hKw, storeKeywords]
      by_cases hLength : p.length ≤ 256
      · rw [store_zero (by rwa [List.length_replicate]), List.drop_replicate]
        simp only [Option.bind_eq_bind, Option.bind_some, List.length_cons,
          Nat.add_right_cancel_iff,
          List.forall_mem_cons, hLength, and_true]
        constructor
        · rintro ⟨kw, hStore, hCount, hEntries⟩
          obtain ⟨rest, hRest, hSome⟩ := Option.bind_eq_some_iff.mp hStore
          obtain rfl := Option.some.inj hSome
          rw [List.forall_mem_cons, cstr_stored hp] at hEntries
          exact ⟨hCount, hEntries.1, (hIh.mp ⟨rest, hRest, hCount, hEntries.2⟩).2⟩
        · rintro ⟨hCount, hFilled, hRest⟩
          obtain ⟨rest, hStore, -, hEntries⟩ := hIh.mpr ⟨hCount, hRest⟩
          refine ⟨_, by rw [hStore]; rfl, hCount, ?_⟩
          rw [List.forall_mem_cons, cstr_stored hp]
          exact ⟨hFilled, hEntries⟩
      · have hNone : store (List.replicate 256 0) 0 p = none :=
          store_eq_none (by rw [List.length_replicate]; omega)
        rw [hNone]
        simp [hLength]

/-! ### The automaton -/

/-- The active automaton is compiled from the strings. -/
def Compiles (m : Buffers) (h : Held) : Prop :=
  ∀ ps, h = some ps → ∃ b, compile ps = some b ∧ m.a.acsmStateTable = some b.toStateTable

theorem publish_compiles {m m' : Buffers} {ps : List Pattern} (hRun : m.publish = some m')
    (hSpare : m.b.acsmPatterns = ps) : Compiles m' (some ps) := by
  rintro ps' hSome
  obtain rfl := Option.some.inj hSome
  obtain ⟨b', hCompile, hBind⟩ := Option.bind_eq_some_iff.mp hRun
  obtain rfl := Option.some.inj hBind
  obtain ⟨b, hb, hAcsm⟩ := Option.bind_eq_some_iff.mp hCompile
  obtain rfl := Option.some.inj hAcsm
  exact ⟨b, hSpare ▸ hb, rfl⟩

theorem KeepsStrings.add_compiles {m m' : Buffers} {h : Held} {s : List UInt8}
    (hKeeps : KeepsStrings m h) (hs : 0 ∉ s) (hRun : m.add s = some m') :
    Compiles m' (h.add s) := by
  apply publish_compiles hRun
  simp [acsmAddPattern, hKeeps.spare, cstr_eq hs]

theorem KeepsStrings.del_compiles {m m' : Buffers} {h : Held} {s : List UInt8}
    (hKeeps : KeepsStrings m h) (hs : 0 ∉ s) (hRun : m.del s = some m') :
    Compiles m' (h.del s) := by
  obtain ⟨b, hDel, hPublish⟩ := Option.bind_eq_some_iff.mp hRun
  apply publish_compiles hPublish
  rw [acsmDelPattern, hKeeps.spare, cstr_eq hs] at hDel
  cases hList : h.getD [] with
  | nil => simp [hList] at hDel
  | cons p ps =>
    rw [hList] at hDel
    obtain rfl := Option.some.inj hDel
    exact hList ▸ unlink_eq_erase hs hKeeps.terminated

/-- The automata keep their strings, and the keyword automaton is compiled from its own. -/
structure KeepsCompiled (g : Matchers) (h : Strings) : Prop extends KeepsAll g h where
  compiles : Compiles g.strings.kw h.kw

theorem KeepsCompiled.run {g g' : Matchers} {h : Strings} (hKeeps : KeepsCompiled g h) {call : Call}
    (hCall : 0 ∉ call.string) (hRun : call.run g = some g') :
    KeepsCompiled g' (call.held h) := by
  have hAllowed : call.Allowed h := by
    by_contra hNot
    rw [hKeeps.toKeepsAll.run_none hNot] at hRun
    cases hRun
  obtain ⟨g'', hRun', hAll⟩ := hKeeps.toKeepsAll.run hCall hAllowed
  obtain rfl := Option.some.inj (hRun'.symm.trans hRun)
  refine ⟨hAll, ?_⟩
  cases call with
  | addstr s =>
    obtain ⟨strings, hAdd, rfl⟩ := Option.map_eq_some_iff.mp hRun
    obtain ⟨m, hm, hSome⟩ := Option.bind_eq_some_iff.mp hAdd
    obtain rfl := Option.some.inj hSome
    exact hKeeps.kw.add_compiles hCall hm
  | delstr s =>
    obtain ⟨strings, hDel, rfl⟩ := Option.map_eq_some_iff.mp hRun
    obtain ⟨m, hm, hSome⟩ := Option.bind_eq_some_iff.mp hDel
    obtain rfl := Option.some.inj hSome
    exact hKeeps.kw.del_compiles hCall hm
  | addurl s =>
    obtain ⟨strings, hAdd, rfl⟩ := Option.map_eq_some_iff.mp hRun
    obtain ⟨m, -, hSome⟩ := Option.bind_eq_some_iff.mp hAdd
    obtain rfl := Option.some.inj hSome
    exact hKeeps.compiles
  | delurl s =>
    obtain ⟨strings, hDel, rfl⟩ := Option.map_eq_some_iff.mp hRun
    obtain ⟨m, -, hSome⟩ := Option.bind_eq_some_iff.mp hDel
    obtain rfl := Option.some.inj hSome
    exact hKeeps.compiles
  | addStr s =>
    obtain ⟨down, -, rfl⟩ := Option.map_eq_some_iff.mp hRun
    exact hKeeps.compiles
  | delStr s =>
    obtain ⟨down, -, rfl⟩ := Option.map_eq_some_iff.mp hRun
    exact hKeeps.compiles
  | kwMatch s =>
    obtain ⟨-, -, rfl⟩ := Option.map_eq_some_iff.mp hRun
    exact hKeeps.compiles
  | urlMatch s =>
    obtain ⟨-, -, rfl⟩ := Option.map_eq_some_iff.mp hRun
    exact hKeeps.compiles
  | keywordMatch l dbuf len memory =>
    by_cases hTable : g.down.m.acsmStateTable.isSome
    · rw [Call.run, if_pos hTable] at hRun
      obtain rfl := Option.some.inj hRun
      exact hKeeps.compiles
    · rw [Call.run, if_neg hTable] at hRun
      obtain ⟨-, -, rfl⟩ := Option.map_eq_some_iff.mp hRun
      exact hKeeps.compiles

theorem KeepsCompiled.calls (calls : List Call) (hCalls : ∀ call ∈ calls, 0 ∉ call.string)
    {g : Matchers} (hRun : calls.foldlM Call.run init = some g) : KeepsCompiled g (held calls) := by
  have hInit : KeepsCompiled init (held []) :=
    ⟨init_keeps, fun ps hSome => (Option.some_ne_none _ hSome.symm).elim⟩
  refine foldlM_kept Call.run (fun done g => KeepsCompiled g (held done)) calls hInit hRun ?_
  intro done call hMem g g' hKeeps hStep
  rw [held_concat]
  exact hKeeps.run (hCalls call hMem) hStep

/-! ### Both -/

/-- The keywords fill the array exactly when they fit it. -/
theorem KeepsCompiled.collects_iff {g : Matchers} {h : Strings} (hKeeps : KeepsCompiled g h)
    {url : List UInt8} (hText : cstr url ≠ []) (n : Nat) :
    Collects g.strings url n ↔ Fit h.kw (cstr url) n := by
  cases hHeld : h.kw with
  | none =>
    have hTable : g.strings.kw.a.acsmStateTable = none := by
      simpa [hHeld] using hKeeps.kw.compiled
    obtain ⟨c, t, hCons⟩ := List.exists_cons_of_ne_nil hText
    have hNone : getKeywords g.strings url = none := by
      simp [getKeywords, hCons, acsmSearchKw, AcsmStruct.visit, hTable]
    simp [Collects, collectKeywords, Fit, hNone]
  | some keywords =>
    obtain ⟨b, hCompile, hTable⟩ := hKeeps.compiles keywords hHeld
    obtain ⟨kws, hKws, hCount, hMem, hNil⟩ := acsmSearchKw_lists hCompile hTable (cstr url)
    obtain ⟨kws', hKws', hSpec⟩ :=
      acsmSearchKw_spec (hKeeps.kw.searches keywords hHeld) (cstr url)
    obtain rfl := Option.some.inj (hKws.symm.trans hKws')
    have hTerminated : ∀ p ∈ kws, 0 ∉ p := fun p hp =>
      hKeeps.kw.terminated p (by rw [hHeld]; exact hMem p hp)
    have hCollects : Collects g.strings url n ↔ kws.length = n ∧
        ∀ p ∈ kws, p ≠ [] ∧ p.length ≤ 256 := by
      rw [← storeKeywords_filled hTerminated n]
      simp only [Collects, collectKeywords, getKeywords, hKws, Option.bind_eq_bind,
        Option.bind_some]
      constructor
      · rintro ⟨kw, hBind, -, hEntries⟩
        obtain ⟨kw', hStore, hSome⟩ := Option.bind_eq_some_iff.mp hBind
        obtain ⟨rfl, hLength⟩ := Prod.mk.inj (Option.some.inj hSome)
        exact ⟨kw', hStore, hLength, hEntries⟩
      · rintro ⟨kw, hStore, hLength, hEntries⟩
        refine ⟨kw, by rw [hStore, hLength]; rfl, ?_, hEntries⟩
        rw [length_storeKeywords hStore, newKw, List.length_replicate]
    rw [hCollects]
    constructor
    · rintro ⟨hLength, hEach⟩
      have hAll : filled kws = kws := filled_eq fun p hp => (hEach p hp).1
      refine ⟨keywords, rfl, ?_, fun p hp hInfix => ?_, fun hBlank c hc => ?_⟩
      · rw [← hCount, hAll, hLength]
      · by_cases hEmpty : p = []
        · rw [hEmpty]
          exact Nat.zero_le _
        · exact (hEach p ((hSpec p hEmpty).mpr ⟨hp, hInfix⟩)).2
      · by_contra hNot
        exact (hEach [] (hNil.mpr ⟨hBlank, c, hc, hNot⟩)).1 rfl
    · rintro ⟨keywords', hSome, hOccurs, hShort, hBegins⟩
      obtain rfl := Option.some.inj hSome
      have hNotNil : [] ∉ kws := by
        intro hMemNil
        obtain ⟨hBlank, c, hc, hNot⟩ := hNil.mp hMemNil
        exact hNot (hBegins hBlank c hc)
      have hEach : ∀ p ∈ kws, p ≠ [] := fun p hp hEmpty => hNotNil (hEmpty ▸ hp)
      refine ⟨?_, fun p hp => ⟨hEach p hp, ?_⟩⟩
      · rw [← hOccurs, ← hCount, filled_eq hEach]
      · obtain ⟨hHas, hInfix⟩ := (hSpec p (hEach p hp)).mp hp
        exact hShort p hHas hInfix

/-- After every run of updates and searches, and for every url that the url automaton matches, the
keywords fill the array exactly when they fit it. -/
theorem collects_iff_fit (calls : List Call) (hCalls : ∀ call ∈ calls, 0 ∉ call.string)
    (g : Matchers) (hRun : calls.foldlM Call.run init = some g) (url : List UInt8) (n : Nat)
    (hMatch : urlMatch g.strings url = some n) (hPos : 0 < n) :
    Collects g.strings url n ↔ Fit (held calls).kw (cstr url) n := by
  refine (KeepsCompiled.calls calls hCalls hRun).collects_iff ?_ n
  intro hNil
  rw [urlMatch, hNil] at hMatch
  obtain rfl : 0 = n := Option.some.inj hMatch
  exact Nat.lt_irrefl 0 hPos

/-! ### Two runs -/

/-- A keyword and a url pattern make a run. -/
theorem add_run (words urls : List (List UInt8)) (hWords : ∀ w ∈ words ++ urls, 0 ∉ w) :
    ∃ g, (words.map Call.addstr ++ urls.map Call.addurl).foldlM Call.run init = some g := by
  obtain ⟨g, hRun, -⟩ := foldlM_invariant Call.run (fun done g => KeepsAll g (held done))
    (words.map Call.addstr ++ urls.map Call.addurl) init_keeps
      fun done call rest hSplit g hKeeps => by
      have hMem : call ∈ words.map Call.addstr ++ urls.map Call.addurl := by simp [hSplit]
      rw [held_concat]
      rcases List.mem_append.mp hMem with hWord | hUrl
      · obtain ⟨w, hw, rfl⟩ := List.mem_map.mp hWord
        exact hKeeps.run (hWords w (List.mem_append_left _ hw)) trivial
      · obtain ⟨w, hw, rfl⟩ := List.mem_map.mp hUrl
        exact hKeeps.run (hWords w (List.mem_append_right _ hw)) trivial
  exact ⟨g, hRun⟩

theorem KeepsAll.urlMatch_eq {g : Matchers} {h : Strings} (hKeeps : KeepsAll g h)
    (urls : List Pattern) (hUrls : h.url = some urls) (hFilled : ∀ p ∈ urls, p ≠ [])
    (url : List UInt8) : urlMatch g.strings url = some (occurrences urls (cstr url)) :=
  acsmSearch_eq (hKeeps.url.searches urls hUrls) hFilled (cstr url)

/-- The keyword `a` and the url pattern `a`, in the url `a`. -/
theorem collects_iff_fit_same :
    ∃ g, [Call.addstr [97], .addurl [97]].foldlM Call.run init = some g ∧
      Collects g.strings [97] 1 := by
  obtain ⟨g, hRun⟩ := add_run [[97]] [[97]] (by simp)
  have hCalls : ∀ call ∈ [Call.addstr [97], .addurl [97]], 0 ∉ call.string := by
    simp [Call.string]
  have hMatch : urlMatch g.strings [97] = some 1 := by
    have hKeeps := (KeepsCompiled.calls [Call.addstr [97], .addurl [97]] hCalls hRun).toKeepsAll
    rw [hKeeps.urlMatch_eq [[97]] rfl (by simp)]
    decide +kernel
  refine ⟨g, hRun, (collects_iff_fit _ hCalls g hRun [97] 1 hMatch (by decide)).mpr ?_⟩
  refine ⟨[[97]], rfl, by decide +kernel, fun p hp _ => ?_, fun hNil => ?_⟩
  · obtain rfl := List.mem_singleton.mp hp
    decide
  · simp at hNil

/-- The keywords `a` and `b` and the url pattern `ab`, in the url `ab`: two entries for one
match. -/
theorem collects_fails :
    ¬∀ calls : List Call, (∀ call ∈ calls, 0 ∉ call.string) → ∀ g : Matchers,
      calls.foldlM Call.run init = some g → ∀ (url : List UInt8) (n : Nat),
      urlMatch g.strings url = some n → 0 < n → Collects g.strings url n := by
  intro h
  obtain ⟨g, hRun⟩ := add_run [[97], [98]] [[97, 98]] (by simp)
  have hCalls : ∀ call ∈ [Call.addstr [97], .addstr [98], .addurl [97, 98]],
    0 ∉ call.string := by
    simp [Call.string]
  have hKeeps := KeepsCompiled.calls [Call.addstr [97], .addstr [98], .addurl [97, 98]] hCalls hRun
  have hMatch : urlMatch g.strings [97, 98] = some 1 := by
    rw [hKeeps.toKeepsAll.urlMatch_eq [[97, 98]] rfl (by simp)]
    decide +kernel
  have hCollects := h _ hCalls g hRun [97, 98] 1 hMatch (by decide)
  obtain ⟨keywords, hHeld, hCount, -⟩ := (hKeeps.collects_iff (by decide) 1).mp hCollects
  have hWords : held [Call.addstr [97], .addstr [98], .addurl [97, 98]] =
    ⟨some [[98], [97]], some [[97, 98]], none⟩ := rfl
  rw [hWords] at hHeld
  obtain rfl := Option.some.inj hHeld
  exact absurd hCount (by decide +kernel)

end Shutter.Rules.Matchers
