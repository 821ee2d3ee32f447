import Shutter.Acsm.Compile

/-! The search of a compiled automaton.  The state after a text stands for the longest suffix of
the text that begins a pattern, so the lists of the visited states hold each occurrence once. -/

namespace Shutter.Acsm

open Shutter.Library
open scoped List

/-- The state table of `acsm` is the automaton of the patterns. -/
def AcsmStruct.Searches (acsm : AcsmStruct) (ps : List Pattern) : Prop :=
  ∃ b word, acsm.acsmStateTable = some b.toStateTable ∧ Compiled ps word b

/-- State `s` stands for the text. -/
def At (ps : List Pattern) (word : Nat → Pattern) (b : Build) (t : List UInt8) (s : Nat) : Prop :=
  s ≤ b.numStates ∧ word s = longestPrefix ps t

section Search

variable {acsm : AcsmStruct} {ps : List Pattern} {word : Nat → Pattern} {b : Build}

theorem Compiled.at_nil (h : Compiled ps word b) : At ps word b [] 0 :=
  ⟨Nat.zero_le _, h.root⟩

/-- One letter of the text takes the state for the text to the state for the longer text. -/
theorem Compiled.next (h : Compiled ps word b) {t : List UInt8} {s : Nat} (hAt : At ps word b t s)
    (c : UInt8) : ∃ s', b.nextState s c = some s' ∧ At ps word b (t ++ [c]) s' := by
  obtain ⟨hs, hw⟩ := hAt
  obtain ⟨s', hs', hNext, hw'⟩ := h.goes s hs c
  refine ⟨s', hNext, hs', ?_⟩
  rw [hw', hw]
  exact (longestSuffix_concat PrefixOfSome.nil PrefixOfSome.init _ _).symm

theorem Compiled.lists (h : Compiled ps word b) {t : List UInt8} {s : Nat}
    (hAt : At ps word b t s) : Lists ps (b.matchList s) t := by
  refine ⟨(h.out s hAt.1).1.trans (List.Perm.of_eq (List.filter_congr fun p hp => ?_)),
    (h.out s hAt.1).2⟩
  rw [hAt.2]
  exact decide_eq_decide.mpr
    (suffix_longestSuffix_iff (PrefixOfSome.of_mem (mem_filled.mp hp).1))

theorem Compiled.matches (h : Compiled ps word b) (hNonempty : ∀ p ∈ ps, p ≠ [])
    {t : List UInt8} {s : Nat} (hAt : At ps word b t s) :
    b.matchList s ~ ps.filter (· <:+ t) := by
  obtain ⟨hPerm, hMem⟩ := h.lists hAt
  rwa [filled_eq hNonempty, filled_eq fun p hp => hNonempty p (hMem p hp)] at hPerm

theorem Compiled.matches_length (h : Compiled ps word b) (hNonempty : ∀ p ∈ ps, p ≠ [])
    {t : List UInt8} {s : Nat} (hAt : At ps word b t s) :
    (b.matchList s).length = endings ps t := by
  rw [(h.matches hNonempty hAt).length_eq, ← List.countP_eq_length_filter]
  rfl

theorem Compiled.visit (h : Compiled ps word b) (hTable : acsm.acsmStateTable = some b.toStateTable)
    {t : List UInt8} {s : Nat} (hAt : At ps word b t s) (c : UInt8) :
    ∃ s', acsm.visit s c = some (s', b.matchList s') ∧ At ps word b (t ++ [c]) s' := by
  obtain ⟨s', hNext, hAt'⟩ := h.next hAt c
  exact ⟨s', by simp [AcsmStruct.visit, hTable, hNext], hAt'⟩

/-- `acsmSearch` counts the occurrences of the patterns in the text. -/
theorem acsmSearch_eq (h : acsm.Searches ps) (hNonempty : ∀ p ∈ ps, p ≠ [])
    (tx : List UInt8) :
    acsmSearch acsm tx = some (occurrences ps tx) := by
  obtain ⟨b, word, hTable, hCompiled⟩ := h
  obtain ⟨⟨s, nfound⟩, hRun, -, hFound⟩ := foldlM_invariant
    (fun (res : Nat × Nat) c => (acsm.visit res.1 c).bind fun v =>
      some (v.1, res.2 + v.2.length))
    (fun done (res : Nat × Nat) => At ps word b done res.1 ∧ res.2 = occurrences ps done)
    tx (s := (0, 0)) ⟨hCompiled.at_nil, (occurrences_nil hNonempty).symm⟩
      fun done c rest _ res hRes => by
      obtain ⟨s', hVisit, hAt⟩ := hCompiled.visit hTable hRes.1 c
      refine ⟨(s', res.2 + (b.matchList s').length), by simp [hVisit], hAt, ?_⟩
      rw [occurrences_concat, hRes.2, hCompiled.matches_length hNonempty hAt]
  have hSearch : acsmSearch acsm tx = (some (s, nfound)).bind fun res => some res.2 := by
    rw [← hRun]
    rfl
  rw [hSearch, Option.bind_some, hFound]

theorem acsmSearch_of_kw {tx : List UInt8} {kws : List Pattern}
    (h : acsmSearchKw acsm tx = some kws) : acsmSearch acsm tx = some kws.length := by
  have hLoop : ∀ (tx : List UInt8) (s : Nat) (kws : List Pattern) (res : Nat × List Pattern),
      tx.foldlM (fun (res : Nat × List Pattern) c => (acsm.visit res.1 c).bind fun v =>
        some (v.1, res.2 ++ v.2)) (s, kws) = some res →
      tx.foldlM (fun (res : Nat × Nat) c => (acsm.visit res.1 c).bind fun v =>
        some (v.1, res.2 + v.2.length)) (s, kws.length) = some (res.1, res.2.length) := by
    intro tx
    induction tx with
    | nil =>
      rintro s kws res hRun
      obtain rfl : (s, kws) = res := by simpa using hRun
      rfl
    | cons c tx ih =>
      rintro s kws res hRun
      rw [List.foldlM_cons] at hRun ⊢
      cases hVisit : acsm.visit s c with
      | none => simp [hVisit] at hRun
      | some r =>
        have hRest := ih r.1 (kws ++ r.2) res (by simpa [hVisit] using hRun)
        rw [List.length_append] at hRest
        simpa [hVisit] using hRest
  obtain ⟨res, hRun, hRes⟩ := Option.bind_eq_some_iff.mp h
  obtain rfl : res.2 = kws := by simpa using hRes
  have hCount := hLoop tx 0 [] res hRun
  have hSearch : acsmSearch acsm tx =
      (some (res.1, res.2.length)).bind fun res => some res.2 := by
    rw [← hCount]
    rfl
  rw [hSearch, Option.bind_some]

/-- `acsmSearch_kw` over a compiled table stores each occurrence of a pattern with bytes once, and
the empty pattern, if there is one, for the bytes that begin no pattern. -/
theorem acsmSearchKw_lists {b : Build} (hCompile : compile ps = some b)
    (hTable : acsm.acsmStateTable = some b.toStateTable) (tx : List UInt8) :
    ∃ kws, acsmSearchKw acsm tx = some kws ∧ (filled kws).length =
      occurrences (filled ps) tx ∧
      (∀ p ∈ kws, p ∈ ps) ∧
      ([] ∈ kws ↔ [] ∈ ps ∧ ∃ c ∈ tx, ¬PrefixOfSome ps [c]) := by
  obtain ⟨b', word, hCompile', hCompiled, hBlank⟩ := compile_lists ps
  obtain rfl := Option.some.inj (hCompile.symm.trans hCompile')
  have hFilled : ∀ p ∈ filled ps, p ≠ [] := fun p hp => (mem_filled.mp hp).2
  obtain ⟨⟨s, kws⟩, hRun, -, hFound⟩ := foldlM_invariant
    (fun (res : Nat × List Pattern) c => (acsm.visit res.1 c).bind fun v =>
      some (v.1, res.2 ++ v.2))
    (fun done (res : Nat × List Pattern) => At ps word b done res.1 ∧
      (filled res.2).length = occurrences (filled ps) done ∧ (∀ p ∈ res.2, p ∈ ps) ∧
      ([] ∈ res.2 ↔ [] ∈ ps ∧ ∃ c ∈ done, ¬PrefixOfSome ps [c]))
    tx (s := (0, [])) ⟨hCompiled.at_nil, (occurrences_nil hFilled).symm, by simp, by simp⟩
    fun done c rest _ res hRes => by
      obtain ⟨hAt, hCount, hMem, hNil⟩ := hRes
      obtain ⟨s', hVisit, hNext⟩ := hCompiled.visit hTable hAt c
      obtain ⟨hPerm, hOf⟩ := hCompiled.lists hNext
      refine ⟨(s', res.2 ++ b.matchList s'), by simp [hVisit], hNext, ?_, ?_, ?_⟩
      · have hSplit : filled (res.2 ++ b.matchList s') = filled res.2 ++ filled (b.matchList s') :=
          List.filter_append _ _
        rw [hSplit, List.length_append, hCount, hPerm.length_eq, occurrences_concat, endings,
          List.countP_eq_length_filter]
      · intro p hp
        exact (List.mem_append.mp hp).elim (hMem p) (hOf p)
      · rw [List.mem_append, hNil, hBlank s' hNext.1, hNext.2, blank_longestPrefix, blank_concat,
          ← and_or_left]
        refine and_congr_right fun _ => ?_
        simp only [List.mem_append, List.mem_singleton, or_and_right, exists_or, exists_eq_left]
  have hSearch : acsmSearchKw acsm tx = (some (s, kws)).bind fun res => some res.2 := by
    rw [← hRun]
    rfl
  exact ⟨kws, hSearch, hFound⟩

/-- `acsmSearch_kw` finds the patterns that occur in the text. -/
theorem acsmSearchKw_spec (h : acsm.Searches ps) (tx : List UInt8) :
    ∃ kws, acsmSearchKw acsm tx = some kws ∧ ∀ p, p ≠ [] →
      (p ∈ kws ↔ p ∈ ps ∧ p <:+: tx) := by
  obtain ⟨b, word, hTable, hCompiled⟩ := h
  obtain ⟨⟨s, kws⟩, hRun, -, hFound⟩ := foldlM_invariant
    (fun (res : Nat × List Pattern) c => (acsm.visit res.1 c).bind fun v =>
      some (v.1, res.2 ++ v.2))
    (fun done (res : Nat × List Pattern) => At ps word b done res.1 ∧
      ∀ p, p ≠ [] → (p ∈ res.2 ↔ p ∈ ps ∧ p <:+: done))
    tx (s := (0, [])) ⟨hCompiled.at_nil, fun p hp => by simp [hp]⟩
      fun done c rest _ res hRes => by
      obtain ⟨s', hVisit, hAt⟩ := hCompiled.visit hTable hRes.1 c
      refine ⟨(s', res.2 ++ b.matchList s'), by simp [hVisit], hAt, fun p hp => ?_⟩
      have hMatch : p ∈ b.matchList s' ↔ p ∈ ps ∧ p <:+ done ++ [c] := by
        have hMem := (hCompiled.lists hAt).1.mem_iff (a := p)
        simpa [mem_filled, hp] using hMem
      rw [List.mem_append, hRes.2 p hp, hMatch, List.infix_concat_iff, ← and_or_left, or_comm]
  have hSearch : acsmSearchKw acsm tx = (some (s, kws)).bind fun res => some res.2 := by
    rw [← hRun]
    rfl
  exact ⟨kws, hSearch, hFound⟩

end Search

/-- `acsmCompile` leaves the automaton of the pattern list. -/
theorem acsmCompile_searches (acsm : AcsmStruct) :
    ∃ acsm', acsmCompile acsm = some acsm' ∧ acsm'.acsmPatterns = acsm.acsmPatterns ∧
      acsm'.Searches acsm.acsmPatterns := by
  obtain ⟨b, word, hCompile, hCompiled⟩ := compile_compiled acsm.acsmPatterns
  refine ⟨{ acsm with acsmMaxStates := maxStates acsm.acsmPatterns, acsmNumStates := b.numStates,
                      acsmStateTable := some b.toStateTable }, ?_, rfl, b, word, rfl, hCompiled⟩
  rw [acsmCompile, hCompile]
  rfl

/-! ### Patterns without NUL -/

/-- Between patterns without NUL, `strcmp` is equality, and `acsmDelPattern` erases. -/
theorem unlink_eq_erase {pat : Pattern} {patterns : List Pattern} (hPat : 0 ∉ pat)
    (hPatterns : ∀ p ∈ patterns, 0 ∉ p) : unlink pat patterns = patterns.erase pat := by
  unfold unlink
  induction patterns with
  | nil => rfl
  | cons p patterns ih =>
    have hIh := ih fun q hq => hPatterns q (List.mem_cons_of_mem _ hq)
    rw [List.eraseP_cons, List.erase_cons, hIh, cstr_eq hPat,
      cstr_eq (hPatterns p List.mem_cons_self)]
    by_cases hp : p = pat
    · simp [hp]
    · simp [hp, Ne.symm hp]

end Shutter.Acsm
