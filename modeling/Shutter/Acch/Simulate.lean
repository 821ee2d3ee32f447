import Shutter.Acch.Model
import Shutter.Acsm.Search

/-! The matcher over two automata that do the same.  A map between their states that keeps the
scans and the depths keeps the whole run, so a compiled state table can be replaced by the patterns
that it was compiled from. -/

namespace Shutter.Acch

open Shutter.Acsm Shutter.Library

variable {σ τ : Type}

/-- The map `f` between the states of two automata keeps what `acch` sees of them. -/
structure Simulates (S : Scanner σ) (T : Scanner τ) (f : σ → τ) : Prop where
  root : T.root = f S.root
  scan : ∀ s b, T.scan (f s) b = (S.scan s b).map fun r => (f r.1, r.2)
  dept : ∀ s, T.dept (f s) = S.dept s

/-- The same variables over the other automaton. -/
def Window.map (f : σ → τ) (a : Window σ) : Window τ := ⟨a.toMemory, f a.state⟩

@[simp] theorem Window.map_toMemory (f : σ → τ) (a : Window σ) :
    (a.map f).toMemory = a.toMemory := rfl

@[simp] theorem Window.map_state (f : σ → τ) (a : Window σ) :
    (a.map f).state = f a.state := rfl

@[simp] theorem Window.map_full (f : σ → τ) (a : Window σ) (b : UInt8) :
    (a.map f).full b = a.full b := rfl

theorem lift_some {α : Type} (x : α) : (liftM (some x) : Run α) = pure x := rfl

section Simulation

variable {S : Scanner σ} {T : Scanner τ} {f : σ → τ}

theorem Simulates.copyByte (h : Simulates S T f) (d : Nat) (a : Window σ) :
    (a.map f).copyByte T d = (fun r => (r.1.map f, r.2)) <$> a.copyByte S d := by
  simp only [Window.copyByte, Window.map_toMemory, Window.map_state, h.scan]
  cases S.scan a.state (a.win (a.w - d)) with
  | none => rfl
  | some r =>
    simp only [Option.map_some, lift_some, pure_bind, Window.map_full]
    by_cases hFull : wsize - 1 ≤ a.w
    · simp only [hFull, if_true]
      rfl
    · simp only [hFull, if_false]
      rfl

theorem Simulates.leftBorder (h : Simulates S T f) (d rest j : Nat) (a : Window σ) :
    (a.map f).leftBorder T d rest j =
      (fun r => (r.1.map f, r.2)) <$> a.leftBorder S d rest j := by
  induction rest generalizing j a with
  | zero => rfl
  | succ rest ih =>
    unfold Window.leftBorder
    rw [Window.map_toMemory, Window.map_state, h.dept, map_bind]
    refine bind_congr fun dept => ?_
    by_cases hDept : j < dept
    · rw [if_pos hDept, if_pos hDept]
      by_cases hd : d ≤ a.w
      · rw [if_pos hd, if_pos hd, h.copyByte, map_bind, bind_map_left]
        refine bind_congr fun ⟨a, hit⟩ => ?_
        cases hit
        · exact ih _ _
        · rfl
      · rw [if_neg hd, if_neg hd]
        exact ih _ _
    · rw [if_neg hDept, if_neg hDept]
      rfl

theorem Simulates.scanRun (h : Simulates S T f) (d rest j : Nat) (a : Window σ) :
    (a.map f).scanRun T d rest j = (fun r => (r.1.map f, r.2)) <$> a.scanRun S d rest j := by
  induction rest generalizing j a with
  | zero => rfl
  | succ rest ih =>
    unfold Window.scanRun
    rw [Window.map_toMemory]
    split
    · rw [h.copyByte, map_bind, bind_map_left]
      refine bind_congr fun ⟨a, hit⟩ => ?_
      cases hit
      · exact ih _ _
      · rfl
    · exact ih _ _

theorem Window.map_skipRun (f : σ → τ) (d rest : Nat) (a : Window σ) :
    (a.map f).skipRun d rest = (a.skipRun d rest).map (·.map f) := by
  induction rest generalizing a with
  | zero => rfl
  | succ rest ih =>
    unfold Window.skipRun
    rw [Window.map_toMemory]
    split
    · exact ih { a with win := Function.update a.win a.w (a.win (a.w - d)), w := a.w + 1 }
    · rfl

theorem Simulates.skip (h : Simulates S T f) (d j p : Nat) (a : Window σ) :
    (a.map f).skip T d j p = (fun r => (r.1.map f, r.2)) <$> a.skip S d j p := by
  unfold Window.skip
  split
  · rw [a.map_skipRun f, map_bind]
    cases a.skipRun d (p - (cDepth - 1) - j) with
    | none => rfl
    | some a =>
      have := h.scanRun d (cDepth - 1) (p - (cDepth - 1)) { a with state := S.root }
      rw [Window.map, ← h.root] at this
      exact this
  · rfl

theorem Simulates.round (h : Simulates S T f) (d len j : Nat) (a : Window σ) :
    (a.map f).round T d len j = (fun r => (r.1.map f, r.2)) <$> a.round S d len j := by
  unfold Window.round
  simp only [Window.map_toMemory, h.skip, map_bind, bind_map_left, h.scanRun]
  rfl

theorem Simulates.rounds (h : Simulates S T f) (d len fuel j : Nat) (a : Window σ) :
    (a.map f).rounds T d len fuel j =
      (fun r => (r.1.map f, r.2)) <$> a.rounds S d len fuel j := by
  induction fuel generalizing j a with
  | zero =>
    unfold Window.rounds
    split <;> rfl
  | succ fuel ih =>
    unfold Window.rounds
    split
    · rw [h.round, map_bind, bind_map_left]
      refine bind_congr fun ⟨a, j, tag⟩ => ?_
      cases tag
      · exact ih _ _
      · rfl
    · rfl

theorem Simulates.copy (h : Simulates S T f) (d len : Nat) (a : Window σ) :
    (a.map f).copy T d len = (fun r => (r.1.map f, r.2)) <$> a.copy S d len := by
  unfold Window.copy
  rw [h.leftBorder, map_bind, bind_map_left]
  refine bind_congr fun ⟨a, j, tag⟩ => ?_
  cases tag
  · exact h.rounds _ _ _ _ _
  · rfl

theorem Simulates.literal (h : Simulates S T f) (b : UInt8) (a : Window σ) :
    (a.map f).literal T b = (fun r => (r.1.map f, r.2)) <$> a.literal S b := by
  unfold Window.literal
  simp only [Window.map_toMemory, Window.map_state, Window.map_full, h.scan]
  cases S.scan a.state b with
  | none => rfl
  | some r =>
    simp only [Option.map_some, lift_some, pure_bind]
    by_cases hStatus : r.2 = 0
    · simp only [hStatus, if_true]
      rfl
    · by_cases hFull : wsize - 1 ≤ a.w
      · simp only [hStatus, hFull, if_true, if_false]
        rfl
      · simp only [hStatus, hFull, if_false]
        rfl

theorem Simulates.token (h : Simulates S T f) (l : UInt8) (dbuf : UInt16) (a : Window σ) :
    (a.map f).token T l dbuf = (fun r => (r.1.map f, r.2)) <$> a.token S l dbuf := by
  unfold Window.token
  split
  · exact h.literal _ _
  · exact h.copy _ _ _

theorem Simulates.tokens (h : Simulates S T f) (l : Nat → UInt8) (dbuf : Nat → UInt16)
    (rest i : Nat) (a : Window σ) :
    (a.map f).tokens T l dbuf rest i =
      (fun r => (r.1.map f, r.2)) <$> a.tokens S l dbuf rest i := by
  induction rest generalizing i a with
  | zero => rfl
  | succ rest ih =>
    unfold Window.tokens
    rw [h.token, map_bind, bind_map_left]
    refine bind_congr fun ⟨a, tag⟩ => ?_
    cases tag
    · exact ih _ _
    · rfl

theorem Simulates.search (h : Simulates S T f) (l : Nat → UInt8) (dbuf : Nat → UInt16)
    (offset lastLit : Nat) (m : Memory) :
    search T l dbuf offset lastLit m = search S l dbuf offset lastLit m := by
  have hTokens := h.tokens l dbuf (lastLit - offset) offset ⟨{ m with w := 0 }, S.root⟩
  rw [Window.map, ← h.root] at hTokens
  unfold Acch.search
  rw [hTokens]
  cases hRun :
    (Window.tokens S l dbuf (lastLit - offset) offset ⟨{ m with w := 0 }, S.root⟩).run with
  | none => simp [ExceptT.run_map, hRun]
  | some r =>
    cases r with
    | error m => simp [ExceptT.run_map, hRun, Except.map]
    | ok r =>
      obtain ⟨a, hit⟩ := r
      cases hit <;> simp [ExceptT.run_map, hRun, Except.map]

end Simulation

/-! ### The compiled automaton -/

/-- The automaton of the patterns in their own terms.  A state is the text since the start. -/
def textScanner (ps : List Pattern) : Scanner (List UInt8) where
  root := []
  scan t b := some (t ++ [b], if ∃ p ∈ ps, p <:+ t ++ [b] then 0
    else if cDepth ≤ (longestPrefix ps (t ++ [b])).length then 1 else 2)
  dept t := some (longestPrefix ps t).length

section Compiled

variable {ps : List Pattern} {word : Nat → Pattern} {b : Build}

/-- The state of the table after a text. -/
def stateAfter (b : Build) (t : List UInt8) : Nat :=
  t.foldl (fun s c => (b.nextState s c).getD 0) 0

theorem stateAfter_concat (b : Build) (t : List UInt8) (c : UInt8) :
    stateAfter b (t ++ [c]) = (b.nextState (stateAfter b t) c).getD 0 := by
  simp [stateAfter]

theorem at_stateAfter (h : Compiled ps word b) (t : List UInt8) :
    At ps word b t (stateAfter b t) := by
  induction t using List.reverseRecOn with
  | nil => exact h.at_nil
  | append_singleton t c ih =>
    obtain ⟨s, hNext, hAt⟩ := h.next ih c
    rwa [stateAfter_concat, hNext]

theorem nextState_stateAfter (h : Compiled ps word b) (t : List UInt8) (c : UInt8) :
    b.nextState (stateAfter b t) c = some (stateAfter b (t ++ [c])) := by
  obtain ⟨s, hNext, -⟩ := h.next (at_stateAfter h t) c
  rw [stateAfter_concat, hNext]
  rfl

/-- A structure that holds the table of a compilation, and its depths. -/
def Holds (acsm : AcsmxStruct) (b : Build) : Prop :=
  acsm.acsmStateTable = some b.toStateTable ∧ acsm.dept = b.dept

theorem Holds.simulates {acsm : AcsmxStruct} (hHolds : Holds acsm b) (h : Compiled ps word b)
    (hNonempty : ∀ p ∈ ps, p ≠ []) :
    Simulates (textScanner ps) (scanner acsm) (stateAfter b) := by
  obtain ⟨hTable, hDept⟩ := hHolds
  have hDepth : ∀ t, b.dept (stateAfter b t) = (longestPrefix ps t).length := fun t => by
    obtain ⟨hs, hWord⟩ := at_stateAfter h t
    rw [h.dept _ hs, hWord]
  refine ⟨rfl, fun t c => ?_, fun t => ?_⟩
  · have hMatches := h.matches hNonempty (at_stateAfter h (t ++ [c]))
    have hIff : (b.matchList (stateAfter b (t ++ [c]))).isEmpty = true ↔
        ¬∃ p ∈ ps, p <:+ t ++ [c] := by
      rw [List.isEmpty_iff, ← List.length_eq_zero_iff, hMatches.length_eq,
        List.length_eq_zero_iff, List.filter_eq_nil_iff]
      simp
    simp only [scanner, scanAC, fsm, hTable, Option.bind_eq_bind, Option.bind_some,
      nextState_stateAfter h, textScanner, Option.map_some, hDept, hDepth]
    by_cases hMatch : ∃ p ∈ ps, p <:+ t ++ [c]
    · have := mt hIff.mp (not_not.mpr hMatch)
      simp [this, hMatch]
    · have := hIff.mpr hMatch
      simp [this, hMatch]
  · simp [scanner, textScanner, hTable, hDept, hDepth]

theorem acsmcompile_of_compile {acsm : AcsmxStruct} (h : compile acsm.acsmPatterns = some b) :
    ∃ acsm', acsmcompile acsm = some acsm' ∧ acsm'.acsmPatterns = acsm.acsmPatterns ∧
      Holds acsm' b := by
  refine ⟨⟨⟨maxStates acsm.acsmPatterns, b.numStates, acsm.acsmPatterns,
    some b.toStateTable⟩,
    b.dept⟩, ?_, rfl, rfl, rfl⟩
  rw [acsmcompile, h]
  rfl

theorem acsmcompile_holds (acsm : AcsmxStruct) :
    ∃ acsm' b word, acsmcompile acsm = some acsm' ∧ acsm'.acsmPatterns = acsm.acsmPatterns ∧
      Holds acsm' b ∧ Compiled acsm.acsmPatterns word b := by
  obtain ⟨b, word, hCompile, hCompiled⟩ := compile_compiled acsm.acsmPatterns
  obtain ⟨acsm', hRun, hPatterns, hHolds⟩ := acsmcompile_of_compile hCompile
  exact ⟨acsm', b, word, hRun, hPatterns, hHolds, hCompiled⟩

/-- The matcher over a compiled structure is the matcher over its patterns. -/
theorem acch_eq {acsm acsm' : AcsmxStruct} (hCompile : acsmcompile acsm = some acsm')
    (hNonempty : ∀ p ∈ acsm.acsmPatterns, p ≠ []) (l : Nat → UInt8) (dbuf : Nat → UInt16)
    (offset lastLit : Nat) (m : Memory) :
    acch acsm' l dbuf offset lastLit m =
      search (textScanner acsm.acsmPatterns) l dbuf offset lastLit m := by
  obtain ⟨acsm'', b, word, hCompile', -, hHolds, hCompiled⟩ := acsmcompile_holds acsm
  obtain rfl := Option.some.inj (hCompile.symm.trans hCompile')
  exact (hHolds.simulates hCompiled hNonempty).search l dbuf offset lastLit m

/-! ### The state after a text -/

/-- The state after a text that is fed through `fsm` byte by byte. -/
def feed (acsm : AcsmxStruct) (t : List UInt8) : Option Nat :=
  t.foldlM (fun s c => (fsm acsm s c).map (·.1)) 0

/-- State `s` is the one spelled by the longest suffix of the text that begins a pattern, and its
depth is the length of that suffix. -/
def LivePrefix (acsm : AcsmxStruct) (ps : List Pattern) (t : List UInt8) (s : Nat) : Prop :=
  ∃ w, w <:+ t ∧ PrefixOfSome ps w ∧
    (∀ v, v <:+ t → PrefixOfSome ps v → v.length ≤ w.length) ∧
    Spells ps w s ∧ acsm.dept s = w.length

theorem Holds.fsm {acsm : AcsmxStruct} (hHolds : Holds acsm b) (h : Compiled ps word b)
    (t : List UInt8) (c : UInt8) : Acch.fsm acsm (stateAfter b t) c =
      some (stateAfter b (t ++ [c]), !(b.matchList (stateAfter b (t ++ [c]))).isEmpty) := by
  simp [Acch.fsm, hHolds.1, nextState_stateAfter h]

theorem Holds.feed {acsm : AcsmxStruct} (hHolds : Holds acsm b) (h : Compiled ps word b)
    (t : List UInt8) : Acch.feed acsm t = some (stateAfter b t) := by
  induction t using List.reverseRecOn with
  | nil => rfl
  | append_singleton t c ih =>
    rw [Acch.feed] at ih ⊢
    rw [List.foldlM_append, ih]
    simp [hHolds.fsm h]

theorem Holds.livePrefix {acsm : AcsmxStruct} (hHolds : Holds acsm b) (h : Compiled ps word b)
    (hSpells : ∀ s ≤ b.numStates, Spells ps (word s) s) (t : List UInt8) :
    LivePrefix acsm ps t (stateAfter b t) := by
  obtain ⟨hs, hWord⟩ := at_stateAfter h t
  refine ⟨longestPrefix ps t, longestSuffix_suffix _ t, longestSuffix_mem PrefixOfSome.nil t,
    fun v hSuffix hv => (suffix_longestSuffix hv hSuffix).length_le, ?_, ?_⟩
  · rw [← hWord]
    exact hSpells _ hs
  · rw [hHolds.2, h.dept _ hs, hWord]

theorem scan_textScanner (ps : List Pattern) (t : List UInt8) (c : UInt8) :
    ∃ status, (textScanner ps).scan t c = some (t ++ [c], status) ∧
      (status = 0 ↔ ∃ p ∈ ps, p <:+ t ++ [c]) ∧
      (status = 1 ↔ (¬∃ p ∈ ps, p <:+ t ++ [c]) ∧
        cDepth ≤ (longestPrefix ps (t ++ [c])).length) ∧
      (status = 2 ↔ (¬∃ p ∈ ps, p <:+ t ++ [c]) ∧
        (longestPrefix ps (t ++ [c])).length < cDepth) := by
  refine ⟨_, rfl, ?_⟩
  by_cases hMatch : ∃ p ∈ ps, p <:+ t ++ [c]
  · simp [hMatch]
  · by_cases hDeep : cDepth ≤ (longestPrefix ps (t ++ [c])).length
    · simp [hMatch, hDeep]
    · simp [hMatch, hDeep, Nat.lt_of_not_le hDeep]

/-- The automaton that `acsmcompile` builds of patterns with bytes keeps, in its state and in
`dept`, the longest suffix of the text that may still become a match, and `scanAC` reads its three
statuses off them. -/
theorem scanAC_tracks (acsm : AcsmxStruct) (hNonempty : ∀ p ∈ acsm.acsmPatterns, p ≠ []) :
    ∃ acsm', acsmcompile acsm = some acsm' ∧ ∀ t : List UInt8, ∃ s,
      feed acsm' t = some s ∧ LivePrefix acsm' acsm.acsmPatterns t s ∧
      ∀ c, ∃ s' status, scanAC acsm' s c = some (s', status) ∧
        feed acsm' (t ++ [c]) = some s' ∧
        (status = 0 ↔ ∃ p ∈ acsm.acsmPatterns, p <:+ t ++ [c]) ∧
        (status = 1 ↔ (¬∃ p ∈ acsm.acsmPatterns, p <:+ t ++ [c]) ∧
        cDepth ≤ acsm'.dept s') ∧
        (status = 2 ↔ (¬∃ p ∈ acsm.acsmPatterns, p <:+ t ++ [c]) ∧
        acsm'.dept s' < cDepth) := by
  obtain ⟨b, word, hCompile, hCompiled, -, hSpells⟩ := compile_trie acsm.acsmPatterns
  obtain ⟨acsm', hRun, -, hHolds⟩ := acsmcompile_of_compile hCompile
  have hDepth : ∀ t, acsm'.dept (stateAfter b t) =
    (longestPrefix acsm.acsmPatterns t).length := by
    intro t
    obtain ⟨hs, hWord⟩ := at_stateAfter hCompiled t
    rw [hHolds.2, hCompiled.dept _ hs, hWord]
  refine ⟨acsm', hRun, fun t => ⟨stateAfter b t, hHolds.feed hCompiled t,
    hHolds.livePrefix hCompiled hSpells t, fun c => ?_⟩⟩
  obtain ⟨status, hScan, hStatus⟩ := scan_textScanner acsm.acsmPatterns t c
  have hAgree := (hHolds.simulates hCompiled hNonempty).scan t c
  rw [hScan, Option.map_some] at hAgree
  refine ⟨stateAfter b (t ++ [c]), status, hAgree, hHolds.feed hCompiled _, ?_⟩
  rw [hDepth]
  exact hStatus

theorem scanAC_tracks_cab : ∃ acsm',
    acsmcompile (acsmaddPattern acsmnew [99, 97, 98]) = some acsm' ∧ ∀ t : List UInt8, ∃ s,
      feed acsm' t = some s ∧ LivePrefix acsm' [[99, 97, 98]] t s ∧
      ∀ c, ∃ s' status, scanAC acsm' s c = some (s', status) ∧
        feed acsm' (t ++ [c]) = some s' ∧
        (status = 0 ↔ ∃ p ∈ [[99, 97, 98]], p <:+ t ++ [c]) ∧
        (status = 1 ↔ (¬∃ p ∈ [[99, 97, 98]], p <:+ t ++ [c]) ∧
        cDepth ≤ acsm'.dept s') ∧
        (status = 2 ↔ (¬∃ p ∈ [[99, 97, 98]], p <:+ t ++ [c]) ∧ acsm'.dept s' < cDepth) :=
  scanAC_tracks (acsmaddPattern acsmnew [99, 97, 98]) (by decide)

end Compiled

end Shutter.Acch
