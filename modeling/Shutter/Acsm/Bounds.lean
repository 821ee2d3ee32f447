import Shutter.Acsm.Compile

/-! The compiler with the size of its table.  `acsmCompile` allocates `acsmMaxStates` rows, and
each function here is the one of the same name with a test before each row that it uses.  Every
state in the table, on the queue and behind a failure has been allocated before, so no test
fails. -/

namespace Shutter.Acsm

open Shutter.Library

/-! ### The compiler with tests -/

section Within

variable (max : Nat)

/-- The use of row `s` of a table of `max` rows. -/
def useRow (s : Nat) : Option Unit := if s < max then some () else none

/-- `Build.matchUp` with its reads of `NextState`. -/
def Build.matchUpWithin (b : Build) : Nat → Pattern → Option (Nat × Pattern)
  | state, [] => some (state, [])
  | state, c :: p => do
    useRow max state
    match b.nextState state c with
    | none => some (state, c :: p)
    | some next => b.matchUpWithin next p

/-- `Build.addStates` with its writes of `NextState`, and the state that it allocates. -/
def Build.addStatesWithin : Build → Nat → Pattern → Option (Build × Nat)
  | b, state, [] => some (b, state)
  | b, state, c :: p => do
    useRow max (b.numStates + 1)
    useRow max state
    (b.addState state c).addStatesWithin (b.numStates + 1) p

/-- `Build.addMatchListEntry` with its uses of `MatchList`. -/
def Build.addMatchListEntryWithin (b : Build) (s : Nat) (p : Pattern) : Option Build := do
  useRow max s
  some (b.addMatchListEntry s p)

/-- `Build.addPatternStates`. -/
def Build.addPatternStatesWithin (b : Build) (p : Pattern) : Option Build := do
  let (state, rest) ← b.matchUpWithin max 0 p
  let (b, state) ← b.addStatesWithin max state rest
  b.addMatchListEntryWithin max state p

/-- `Build.fillRoot`. -/
def Build.fillRootWithin (b : Build) : Option Build := do
  useRow max 0
  some b.fillRoot

/-- `Build.queueRoot` with the row of the root and the row whose failure it sets. -/
def Build.queueRootWithin : Build × List Nat → UInt8 → Option (Build × List Nat)
  | (b, queue), i => do
    useRow max 0
    let s ← b.nextState 0 i
    if s = 0 then some (b, queue) else do
      useRow max s
      some (b.setFail s 0, queue ++ [s])

/-- `Build.nextValid` with the rows of the failures that it follows. -/
def Build.nextValidWithin (b : Build) (i : UInt8) : Nat → Nat → Option Nat
  | 0, _ => none
  | fuel + 1, fs => do
    useRow max fs
    match b.nextState fs i with
    | some next => some next
    | none => b.nextValidWithin i fuel (b.failState fs)

/-- `Build.buildByte` with the rows of the state at work, of its failure and of its child. -/
def Build.buildByteWithin (r : Nat) : Build × List Nat → UInt8 → Option (Build × List Nat)
  | (b, queue), i => do
    useRow max r
    match b.nextState r i with
    | some s => do
      let next ← b.nextValidWithin max i (b.numStates + 1) (b.failState r)
      useRow max s
      let b := b.setFail s next
      useRow max next
      let b ← (b.matchList next).foldlM (fun b pat => b.addMatchListEntryWithin max s pat) b
      some (b, queue ++ [s])
    | none => do
      useRow max (b.failState r)
      some (b.setNext r i (b.nextState (b.failState r) i), queue)

/-- `Build.buildStates`. -/
def Build.buildStatesWithin : Nat → Build → List Nat → Option Build
  | _, b, [] => some b
  | 0, _, _ :: _ => none
  | fuel + 1, b, r :: queue => do
    let (b, queue) ← alphabet.foldlM (Build.buildByteWithin max r) (b, queue)
    Build.buildStatesWithin fuel b queue

/-- `Build.buildDfa`. -/
def Build.buildDfaWithin (b : Build) : Option Build := do
  let (b, queue) ← alphabet.foldlM (Build.queueRootWithin max) (b, [])
  Build.buildStatesWithin max b.numStates b queue

/-- `compile` on a table of `max` rows, which fails when a state is no row of it. -/
def compileWithin (patterns : List Pattern) : Option Build := do
  let b ← patterns.foldlM (Build.addPatternStatesWithin max) Build.start
  let b ← b.fillRootWithin max
  b.buildDfaWithin max

end Within

/-! ### No test fails -/

/-- The states of the table are rows of it: those allocated and those that other rows name. -/
structure Bounded (max : Nat) (b : Build) : Prop where
  size : b.numStates < max
  next : ∀ s c t, b.nextState s c = some t → t < max
  fail : ∀ s, b.failState s < max

variable {max : Nat} {b : Build}

theorem useRow_of_lt {s : Nat} (h : s < max) : useRow max s = some () := if_pos h

theorem start_bounded (h : 0 < max) : Bounded max Build.start :=
  ⟨h, fun _ _ _ hNext => (nomatch hNext), fun _ => h⟩

theorem Bounded.pos (h : Bounded max b) : 0 < max := Nat.zero_lt_of_lt h.size

theorem Bounded.setNext (h : Bounded max b) (s : Nat) (c : UInt8) {t : Option Nat}
    (ht : ∀ u, t = some u → u < max) : Bounded max (b.setNext s c t) := by
  refine ⟨h.size, fun s' c' u hu => ?_, h.fail⟩
  rw [Build.setNext_nextState] at hu
  split at hu
  · exact ht u hu
  · exact h.next s' c' u hu

theorem Bounded.setFail (h : Bounded max b) (s : Nat) {f : Nat} (hf : f < max) :
    Bounded max (b.setFail s f) := by
  refine ⟨h.size, h.next, fun s' => ?_⟩
  rw [Build.setFail_failState]
  split
  · exact hf
  · exact h.fail s'

theorem Bounded.addMatchListEntry (h : Bounded max b) (s : Nat) (p : Pattern) :
    Bounded max (b.addMatchListEntry s p) := ⟨h.size, h.next, h.fail⟩

theorem Bounded.addState (h : Bounded max b) (hRoom : b.numStates + 1 < max) (s : Nat)
    (c : UInt8) : Bounded max (b.addState s c) := by
  refine ⟨hRoom, fun s' c' t ht => ?_, h.fail⟩
  rw [Build.addState_nextState] at ht
  split at ht
  · obtain rfl := Option.some.inj ht
    exact hRoom
  · exact h.next s' c' t ht

theorem Bounded.fillRoot (h : Bounded max b) : Bounded max b.fillRoot := by
  refine ⟨h.size, fun s c t ht => ?_, h.fail⟩
  simp only [Build.fillRoot] at ht
  split at ht
  · obtain rfl := Option.some.inj ht
    cases hNext : b.nextState s c with
    | none => exact h.pos
    | some u => exact h.next s c u hNext
  · exact h.next s c t ht

/-! #### The trie -/

theorem Bounded.matchUp (h : Bounded max b) (p : Pattern) {state : Nat} (hState : state < max) :
    b.matchUpWithin max state p = some (b.matchUp state p) ∧ (b.matchUp state p).1 < max ∧
      (b.matchUp state p).2.length ≤ p.length := by
  induction p generalizing state with
  | nil => exact ⟨rfl, hState, Nat.le_refl _⟩
  | cons c p ih =>
    unfold Build.matchUpWithin Build.matchUp
    rw [useRow_of_lt hState]
    cases hNext : b.nextState state c with
    | none => exact ⟨rfl, hState, Nat.le_refl _⟩
    | some next =>
      obtain ⟨hRun, hLt, hLe⟩ := ih (h.next state c next hNext)
      exact ⟨hRun, hLt, Nat.le_succ_of_le hLe⟩

theorem Bounded.addStates (h : Bounded max b) (p : Pattern) {state : Nat} (hState : state < max)
    (hRoom : b.numStates + p.length < max) :
    b.addStatesWithin max state p = some (b.addStates state p) ∧
      Bounded max (b.addStates state p).1 ∧ (b.addStates state p).2 < max ∧
      (b.addStates state p).1.numStates = b.numStates + p.length := by
  induction p generalizing b state with
  | nil => exact ⟨rfl, h, hState, rfl⟩
  | cons c p ih =>
    rw [List.length_cons] at hRoom
    have hNew : b.numStates + 1 < max := by omega
    have hNum : (b.addState state c).numStates = b.numStates + 1 := rfl
    obtain ⟨hRun, hBounded, hLt, hSize⟩ := ih (h.addState hNew state c) hNew (by omega)
    refine ⟨?_, hBounded, hLt, ?_⟩
    · rw [Build.addStatesWithin, useRow_of_lt hNew, useRow_of_lt hState]
      exact hRun
    · rw [Build.addStates, hSize, List.length_cons]
      omega

theorem Bounded.addPatternStates (h : Bounded max b) (p : Pattern)
    (hRoom : b.numStates + p.length < max) :
    b.addPatternStatesWithin max p = some (b.addPatternStates p) ∧
      Bounded max (b.addPatternStates p) ∧
      (b.addPatternStates p).numStates ≤ b.numStates + p.length := by
  obtain ⟨hUp, hState, hRest⟩ := h.matchUp p h.pos
  obtain ⟨hAdd, hBounded, hLast, hNum⟩ := h.addStates (b.matchUp 0 p).2 hState (by omega)
  refine ⟨?_, hBounded.addMatchListEntry _ _, ?_⟩
  · simp only [Build.addPatternStatesWithin, hUp, hAdd, Option.bind_eq_bind, Option.bind_some,
      Build.addMatchListEntryWithin, useRow_of_lt hLast]
    rfl
  · have hSame : (b.addPatternStates p).numStates =
      (b.addStates (b.matchUp 0 p).1 (b.matchUp 0 p).2).1.numStates := rfl
    omega

/-- The patterns find room for their states when the table has a row for each of their bytes. -/
theorem Bounded.foldl_addPatternStates (h : Bounded max b) (patterns : List Pattern)
    (hRoom : b.numStates + (patterns.map List.length).sum < max) :
    patterns.foldlM (Build.addPatternStatesWithin max) b =
        some (patterns.foldl Build.addPatternStates b) ∧
      Bounded max (patterns.foldl Build.addPatternStates b) := by
  induction patterns generalizing b with
  | nil => exact ⟨rfl, h⟩
  | cons p patterns ih =>
    rw [List.map_cons, List.sum_cons] at hRoom
    obtain ⟨hRun, hBounded, hNum⟩ := h.addPatternStates p (by omega)
    rw [List.foldlM_cons, hRun]
    exact ih hBounded (by omega)

/-! #### The breadth-first search -/

theorem Bounded.queueRoot (h : Bounded max b) {queue : List Nat} (hQueue : ∀ s ∈ queue, s < max)
    (i : UInt8) :
    Build.queueRootWithin max (b, queue) i = Build.queueRoot (b, queue) i ∧
      ∀ res, Build.queueRoot (b, queue) i = some res → Bounded max res.1 ∧
        ∀ s ∈ res.2, s < max := by
  simp only [Build.queueRootWithin, Build.queueRoot, useRow_of_lt h.pos, Option.bind_eq_bind,
    Option.bind_some]
  cases hNext : b.nextState 0 i with
  | none => exact ⟨rfl, fun _ hRes => absurd hRes.symm (Option.some_ne_none _)⟩
  | some s =>
    have hs := h.next 0 i s hNext
    simp only [Option.bind_some]
    split
    · refine ⟨rfl, ?_⟩
      rintro _ ⟨⟩
      exact ⟨h, hQueue⟩
    · rw [useRow_of_lt hs]
      refine ⟨rfl, ?_⟩
      rintro _ ⟨⟩
      refine ⟨h.setFail s h.pos, fun t ht => ?_⟩
      rcases List.mem_append.mp ht with ht | ht
      · exact hQueue t ht
      · obtain rfl := List.mem_singleton.mp ht
        exact hs

theorem Bounded.nextValid (h : Bounded max b) (i : UInt8) (fuel : Nat) {fs : Nat}
    (hfs : fs < max) :
    b.nextValidWithin max i fuel fs = b.nextValid i fuel fs ∧
      ∀ next, b.nextValid i fuel fs = some next → next < max := by
  induction fuel generalizing fs with
  | zero => exact ⟨rfl, fun _ hNext => nomatch hNext⟩
  | succ fuel ih =>
    unfold Build.nextValidWithin Build.nextValid
    rw [useRow_of_lt hfs]
    cases hNext : b.nextState fs i with
    | none => exact ih (h.fail fs)
    | some next =>
      refine ⟨rfl, ?_⟩
      rintro _ ⟨⟩
      exact h.next fs i next hNext

theorem Bounded.foldl_addMatchListEntry (h : Bounded max b) {s : Nat} (hs : s < max)
    (mlist : List Pattern) :
    mlist.foldlM (fun b pat => Build.addMatchListEntryWithin max b s pat) b =
        some (mlist.foldl (fun b pat => b.addMatchListEntry s pat) b) ∧
      Bounded max (mlist.foldl (fun b pat => b.addMatchListEntry s pat) b) := by
  induction mlist generalizing b with
  | nil => exact ⟨rfl, h⟩
  | cons pat mlist ih =>
    rw [List.foldlM_cons, Build.addMatchListEntryWithin, useRow_of_lt hs]
    exact ih (h.addMatchListEntry s pat)

theorem Bounded.buildByte (h : Bounded max b) {queue : List Nat} (hQueue : ∀ s ∈ queue, s < max)
    {r : Nat} (hr : r < max) (i : UInt8) :
    Build.buildByteWithin max r (b, queue) i = Build.buildByte r (b, queue) i ∧
      ∀ res, Build.buildByte r (b, queue) i = some res →
        Bounded max res.1 ∧ ∀ s ∈ res.2, s < max := by
  simp only [Build.buildByteWithin, Build.buildByte, useRow_of_lt hr, Option.bind_eq_bind,
    Option.bind_some]
  cases hNext : b.nextState r i with
  | none =>
    simp only [useRow_of_lt (h.fail r), Option.bind_some]
    refine ⟨trivial, ?_⟩
    rintro _ ⟨⟩
    exact ⟨h.setNext r i fun u hu => h.next _ i u hu, hQueue⟩
  | some s =>
    have hs := h.next r i s hNext
    obtain ⟨hRun, hValid⟩ := h.nextValid i (b.numStates + 1) (h.fail r)
    simp only [hRun, useRow_of_lt hs, Option.bind_some]
    cases hFound : b.nextValid i (b.numStates + 1) (b.failState r) with
    | none => exact ⟨rfl, fun _ hRes => nomatch hRes⟩
    | some next =>
      have hn := hValid next hFound
      obtain ⟨hLists, hBounded⟩ := (h.setFail s hn).foldl_addMatchListEntry hs
        ((b.setFail s next).matchList next)
      simp only [Option.bind_some, useRow_of_lt hn, hLists]
      refine ⟨trivial, ?_⟩
      rintro _ ⟨⟩
      refine ⟨hBounded, fun t ht => ?_⟩
      rcases List.mem_append.mp ht with ht | ht
      · exact hQueue t ht
      · obtain rfl := List.mem_singleton.mp ht
        exact hs

theorem Bounded.buildStates (h : Bounded max b) {queue : List Nat}
    (hQueue : ∀ s ∈ queue, s < max) (fuel : Nat) :
    Build.buildStatesWithin max fuel b queue = Build.buildStates fuel b queue := by
  induction fuel generalizing b queue with
  | zero => cases queue <;> rfl
  | succ fuel ih =>
    cases queue with
    | nil => rfl
    | cons r queue =>
      obtain ⟨hRow, hKept⟩ := foldlM_eq_of_kept (f := Build.buildByteWithin max r)
        (g := Build.buildByte r) (P := fun res => Bounded max res.1 ∧ ∀ s ∈ res.2, s < max)
        (fun res i hRes => hRes.1.buildByte hRes.2 (hQueue r List.mem_cons_self) i) alphabet
        (s := (b, queue)) ⟨h, fun s hs => hQueue s (List.mem_cons_of_mem _ hs)⟩
      rw [Build.buildStatesWithin, Build.buildStates, hRow, Option.bind_eq_bind]
      exact Option.bind_congr fun res hNext => ih (hKept res hNext).1 (hKept res hNext).2

theorem Bounded.buildDfa (h : Bounded max b) : b.buildDfaWithin max = b.buildDfa := by
  obtain ⟨hRoot, hKept⟩ := foldlM_eq_of_kept (f := Build.queueRootWithin max)
    (g := Build.queueRoot) (P := fun res => Bounded max res.1 ∧ ∀ s ∈ res.2, s < max)
    (fun res i hRes => hRes.1.queueRoot hRes.2 i) alphabet (s := (b, []))
    ⟨h, fun s hs => nomatch hs⟩
  rw [Build.buildDfaWithin, Build.buildDfa, hRoot, Option.bind_eq_bind]
  exact Option.bind_congr fun res hNext => (hKept res hNext).1.buildStates (hKept res hNext).2 _

/-- The table that `acsmCompile` allocates has a row for each state that the compilation uses. -/
theorem compileWithin_maxStates (patterns : List Pattern) :
    compileWithin (maxStates patterns) patterns = compile patterns := by
  have hMax : 0 < maxStates patterns := by
    unfold maxStates
    omega
  have hRoom : Build.start.numStates + (patterns.map List.length).sum < maxStates patterns := by
    simp only [Build.start, maxStates]
    omega
  obtain ⟨hTrie, hBounded⟩ := (start_bounded hMax).foldl_addPatternStates patterns hRoom
  simp only [compileWithin, compile, hTrie, Build.fillRootWithin, useRow_of_lt hMax,
    Option.bind_eq_bind, Option.bind_some]
  exact hBounded.fillRoot.buildDfa

end Shutter.Acsm
