import Shutter.Acsm.Table
import Shutter.Library.LongestSuffix

/-! The first phase of the compiler: `AddPatternStates` grows a trie.  Each state stands for a
word, the bytes on the path from state 0, and the words of the states are the prefixes of the
patterns. -/

namespace Shutter.Acsm

open Shutter.Library

section Writes

variable (b : Build) (s : Nat) (c : UInt8)

@[simp] theorem Build.setNext_nextState (t : Option Nat) (s' : Nat) (c' : UInt8) :
    (b.setNext s c t).nextState s' c' = if s' = s ∧ c' = c then t else b.nextState s' c' := rfl
@[simp] theorem Build.setNext_failState (t : Option Nat) :
    (b.setNext s c t).failState = b.failState := rfl
@[simp] theorem Build.setNext_matchList (t : Option Nat) :
    (b.setNext s c t).matchList = b.matchList := rfl
@[simp] theorem Build.setNext_numStates (t : Option Nat) :
    (b.setNext s c t).numStates = b.numStates := rfl
@[simp] theorem Build.setNext_dept (t : Option Nat) : (b.setNext s c t).dept = b.dept := rfl

@[simp] theorem Build.setFail_nextState (f : Nat) : (b.setFail s f).nextState = b.nextState := rfl
@[simp] theorem Build.setFail_failState (f s' : Nat) :
    (b.setFail s f).failState s' = if s' = s then f else b.failState s' := rfl
@[simp] theorem Build.setFail_matchList (f : Nat) : (b.setFail s f).matchList = b.matchList := rfl
@[simp] theorem Build.setFail_numStates (f : Nat) : (b.setFail s f).numStates = b.numStates := rfl
@[simp] theorem Build.setFail_dept (f : Nat) : (b.setFail s f).dept = b.dept := rfl

@[simp] theorem Build.addMatchListEntry_nextState (p : Pattern) :
    (b.addMatchListEntry s p).nextState = b.nextState := rfl
@[simp] theorem Build.addMatchListEntry_failState (p : Pattern) :
    (b.addMatchListEntry s p).failState = b.failState := rfl
@[simp] theorem Build.addMatchListEntry_matchList (p : Pattern) (s' : Nat) :
    (b.addMatchListEntry s p).matchList s' =
      if s' = s then p :: b.matchList s' else b.matchList s' := rfl
@[simp] theorem Build.addMatchListEntry_numStates (p : Pattern) :
    (b.addMatchListEntry s p).numStates = b.numStates := rfl
@[simp] theorem Build.addMatchListEntry_dept (p : Pattern) :
    (b.addMatchListEntry s p).dept = b.dept := rfl

@[simp] theorem Build.addState_nextState (s' : Nat) (c' : UInt8) :
    (b.addState s c).nextState s' c' =
      if s' = s ∧ c' = c then some (b.numStates + 1) else b.nextState s' c' := rfl
@[simp] theorem Build.addState_matchList : (b.addState s c).matchList = b.matchList := rfl
@[simp] theorem Build.addState_numStates : (b.addState s c).numStates = b.numStates + 1 := rfl
@[simp] theorem Build.addState_dept (s' : Nat) :
    (b.addState s c).dept s' = if s' = b.numStates + 1 then b.dept s + 1 else b.dept s' := rfl

end Writes

/-- The states up to `numStates` form a trie: `word` gives each its path from state 0, and the
paths are the words in `V`. -/
structure Shape (V : Pattern → Prop) (word : Nat → Pattern) (b : Build) : Prop where
  closed : ∀ w c, V (w ++ [c]) → V w
  root : word 0 = []
  injective : ∀ s ≤ b.numStates, ∀ t ≤ b.numStates, word s = word t → s = t
  child : ∀ s ≤ b.numStates, ∀ c t, b.nextState s c = some t →
    t ≤ b.numStates ∧ word t = word s ++ [c]
  leaf : ∀ s ≤ b.numStates, ∀ c, b.nextState s c = none → ¬V (word s ++ [c])
  fresh : ∀ s, b.numStates < s → ∀ c, b.nextState s c = none
  mem : ∀ w, V w ↔ ∃ s ≤ b.numStates, word s = w
  dept : ∀ s ≤ b.numStates, b.dept s = (word s).length

theorem Shape.word_mem {V : Pattern → Prop} {word : Nat → Pattern} {b : Build}
    (h : Shape V word b) {s : Nat} (hs : s ≤ b.numStates) : V (word s) :=
  (h.mem _).mpr ⟨s, hs, rfl⟩

theorem Shape.congr {V V' : Pattern → Prop} {word : Nat → Pattern} {b : Build}
    (h : Shape V word b) (hV : ∀ w, V' w ↔ V w) : Shape V' word b :=
  { h with
    closed := fun w c hw => (hV w).mpr (h.closed w c ((hV _).mp hw))
    leaf := fun s hs c hc => (hV _).not.mpr (h.leaf s hs c hc)
    mem := fun w => (hV w).trans (h.mem w) }

theorem start_shape : Shape (PrefixOfSome []) (fun _ => []) Build.start where
  closed _ _ h := h.init
  root := rfl
  injective s hs t ht _ := (Nat.le_zero.mp hs).trans (Nat.le_zero.mp ht).symm
  child _ _ _ _ h := nomatch h
  leaf _ _ _ _ := by simp [PrefixOfSome]
  fresh _ _ _ := rfl
  mem w := by
    simp only [PrefixOfSome, List.not_mem_nil, false_and, exists_false, or_false]
    exact ⟨fun h => ⟨0, Nat.le_refl _, h.symm⟩, fun ⟨_, _, h⟩ => h.symm⟩
  dept _ _ := rfl

/-- A new state below `s` adds the word of `s` and one byte. -/
theorem Shape.addState {V : Pattern → Prop} {word : Nat → Pattern} {b : Build}
    (h : Shape V word b) {s : Nat} (hs : s ≤ b.numStates) {c : UInt8}
    (hNone : b.nextState s c = none) :
    Shape (fun w => V w ∨ w = word s ++ [c])
      (fun t => if t = b.numStates + 1 then word s ++ [c] else word t) (b.addState s c) := by
  have hNew : ¬V (word s ++ [c]) := h.leaf s hs c hNone
  have hOld : ∀ t ≤ b.numStates, t ≠ b.numStates + 1 := fun t ht => by omega
  constructor
  · rintro w d (hV | heq)
    · exact Or.inl (h.closed w d hV)
    · obtain ⟨rfl, -⟩ := by simpa using heq
      exact Or.inl (h.word_mem hs)
  · rw [if_neg (hOld 0 (Nat.zero_le _))]
    exact h.root
  · intro t ht u hu heq
    simp only [Build.addState_numStates] at ht hu
    by_cases ht' : t = b.numStates + 1 <;> by_cases hu' : u = b.numStates + 1
    · omega
    · rw [if_pos ht', if_neg hu'] at heq
      exact absurd (heq ▸ h.word_mem (by omega)) hNew
    · rw [if_neg ht', if_pos hu'] at heq
      exact absurd (heq ▸ h.word_mem (by omega)) hNew
    · rw [if_neg ht', if_neg hu'] at heq
      exact h.injective t (by omega) u (by omega) heq
  · intro t ht d u hu
    simp only [Build.addState_numStates, Build.addState_nextState] at ht hu ⊢
    by_cases ht' : t = b.numStates + 1
    · rw [if_neg (by omega), h.fresh t (by omega)] at hu
      simp at hu
    · split at hu
      · rename_i htd
        obtain ⟨rfl, rfl⟩ := htd
        obtain rfl := Option.some.inj hu
        simp [ht']
      · obtain ⟨hle, hw⟩ := h.child t (by omega) d u hu
        exact ⟨by omega, by rw [if_neg (hOld u hle), if_neg ht', hw]⟩
  · intro t ht d hd
    simp only [Build.addState_numStates, Build.addState_nextState] at ht hd
    split at hd
    · simp at hd
    · rename_i htd
      by_cases ht' : t = b.numStates + 1
      · rw [if_pos ht']
        rintro (hV | heq)
        · exact hNew (h.closed _ d hV)
        · simp at heq
      · rw [if_neg ht']
        rintro (hV | heq)
        · exact h.leaf t (by omega) d hd hV
        · obtain ⟨hw, rfl⟩ := by simpa using heq
          exact htd ⟨h.injective t (by omega) s hs hw, rfl⟩
  · intro t ht d
    simp only [Build.addState_numStates, Build.addState_nextState] at ht ⊢
    rw [if_neg (by omega), h.fresh t (by omega)]
  · intro w
    constructor
    · rintro (hV | rfl)
      · obtain ⟨u, hu, hw⟩ := (h.mem w).mp hV
        exact ⟨u, Nat.le_succ_of_le hu, by rw [if_neg (hOld u hu), hw]⟩
      · exact ⟨b.numStates + 1, Nat.le_refl _, if_pos rfl⟩
    · rintro ⟨u, hu, hw⟩
      by_cases hu' : u = b.numStates + 1
      · rw [if_pos hu'] at hw
        exact Or.inr hw.symm
      · rw [if_neg hu'] at hw
        simp only [Build.addState_numStates] at hu
        exact Or.inl (hw ▸ h.word_mem (by omega))
  · intro t ht
    simp only [Build.addState_numStates, Build.addState_dept] at ht ⊢
    split
    · simp [h.dept s hs]
    · exact h.dept t (by omega)

/-- The first loop stops at the state of a prefix of the pattern, with the bytes after it, and no
transition for the first of these. -/
theorem Shape.matchUp {V : Pattern → Prop} {word : Nat → Pattern} {b : Build}
    (h : Shape V word b) (p : Pattern) {state : Nat} (hState : state ≤ b.numStates) :
    (b.matchUp state p).1 ≤ b.numStates ∧
    word (b.matchUp state p).1 ++ (b.matchUp state p).2 = word state ++ p ∧
    ∀ c rest, (b.matchUp state p).2 = c :: rest →
      b.nextState (b.matchUp state p).1 c = none := by
  induction p generalizing state with
  | nil => exact ⟨hState, rfl, fun _ _ h => nomatch h⟩
  | cons c p ih =>
    unfold Build.matchUp
    cases hNext : b.nextState state c with
    | none =>
      refine ⟨hState, rfl, fun d rest heq => ?_⟩
      obtain ⟨rfl, -⟩ := List.cons.inj heq
      exact hNext
    | some next =>
      obtain ⟨hle, hw⟩ := h.child state hState c next hNext
      obtain ⟨h1, h2, h3⟩ := ih hle
      exact ⟨h1, by simpa [hw] using h2, h3⟩

/-- The second loop adds a state for each prefix of the bytes that are left. -/
theorem Shape.addStates {V : Pattern → Prop} {word : Nat → Pattern} {b : Build}
    (h : Shape V word b) (p : Pattern) {state : Nat} (hState : state ≤ b.numStates)
    (hNone : ∀ c rest, p = c :: rest → b.nextState state c = none) :
    ∃ word', Shape (fun w => V w ∨ ∃ q, q <+: p ∧ w = word state ++ q) word'
        (b.addStates state p).1 ∧
      (b.addStates state p).2 ≤ (b.addStates state p).1.numStates ∧
      word' (b.addStates state p).2 = word state ++ p ∧
      (b.addStates state p).1.numStates = b.numStates + p.length ∧
      (∀ t ≤ b.numStates, word' t = word t) ∧
      (b.addStates state p).1.matchList = b.matchList := by
  induction p generalizing V word b state with
  | nil =>
    refine ⟨word, h.congr fun w =>
      ?_, hState, by simp [Build.addStates], by simp [Build.addStates],
      fun _ _ => rfl, rfl⟩
    constructor
    · rintro (hV | ⟨q, hq, rfl⟩)
      · exact hV
      · simpa [List.prefix_nil.mp hq] using h.word_mem hState
    · exact Or.inl
  | cons c p ih =>
    have hAdd := h.addState hState (hNone c p rfl)
    obtain ⟨word', hShape, hLe, hWord, hNum, hKeep, hMatch⟩ := ih hAdd
      (show b.numStates + 1 ≤ b.numStates + 1 from Nat.le_refl _) fun d rest _ => by
        rw [Build.addState_nextState, if_neg (by omega)]
        exact h.fresh _ (Nat.lt_succ_self _) d
    simp only [if_pos] at hShape hWord
    refine ⟨word', hShape.congr fun w => ?_, hLe, by simp [Build.addStates, hWord], ?_,
      fun t ht => ?_, hMatch⟩
    · constructor
      · rintro (hV | ⟨q, hq, rfl⟩)
        · exact Or.inl (Or.inl hV)
        · cases q with
          | nil => exact Or.inl (Or.inl (by simpa using h.word_mem hState))
          | cons d q =>
            obtain ⟨rfl, hq'⟩ := List.cons_prefix_cons.mp hq
            exact Or.inr ⟨q, hq', by simp⟩
      · rintro ((hV | rfl) | ⟨q, hq, rfl⟩)
        · exact Or.inl hV
        · exact Or.inr ⟨[c], by simp, rfl⟩
        · exact Or.inr ⟨c :: q, List.cons_prefix_cons.mpr ⟨rfl, hq⟩, by simp⟩
    · simp only [Build.addStates, hNum, Build.addState_numStates, List.length_cons]
      omega
    · rw [hKeep t (Nat.le_succ_of_le ht), if_neg (by omega)]

/-- The trie of a list of patterns: its words are the prefixes of the patterns, and each state
lists the patterns that end there, the last one first. -/
structure Trie (patterns : List Pattern) (word : Nat → Pattern) (b : Build) : Prop where
  shape : Shape (PrefixOfSome patterns) word b
  out : ∀ s ≤ b.numStates, b.matchList s = (patterns.filter (· = word s)).reverse
  out_fresh : ∀ s, b.numStates < s → b.matchList s = []
  size : b.numStates ≤ (patterns.map List.length).sum

theorem start_trie : Trie [] (fun _ => []) Build.start :=
  ⟨start_shape, fun _ _ => rfl, fun _ _ => rfl, Nat.le_refl _⟩

theorem Shape.addMatchListEntry {V : Pattern → Prop} {word : Nat → Pattern} {b : Build}
    (h : Shape V word b) (s : Nat) (p : Pattern) : Shape V word (b.addMatchListEntry s p) :=
  ⟨h.closed, h.root, h.injective, h.child, h.leaf, h.fresh, h.mem, h.dept⟩

/-- `AddPatternStates` adds one pattern to the trie. -/
theorem Trie.addPatternStates {patterns : List Pattern} {word : Nat → Pattern} {b : Build}
    (h : Trie patterns word b) (p : Pattern) :
    ∃ word', Trie (patterns ++ [p]) word' (b.addPatternStates p) := by
  obtain ⟨hState, hSplit, hNone⟩ := h.shape.matchUp p (Nat.zero_le _)
  obtain ⟨word', hShape, hLe, hWord, hNum, hKeep, hMatch⟩ :=
    h.shape.addStates (b.matchUp 0 p).2 hState hNone
  rw [h.shape.root, List.nil_append] at hSplit
  rw [hSplit] at hWord
  have hRest : (b.matchUp 0 p).2.length ≤ p.length := by
    have := congrArg List.length hSplit
    rw [List.length_append] at this
    omega
  have hShape' : Shape (PrefixOfSome (patterns ++ [p])) word' (b.addPatternStates p) := by
    refine Shape.addMatchListEntry (hShape.congr fun w => ?_) _ _
    rw [← prefixOfSome_concat_iff (h.shape.word_mem hState), hSplit]
  refine ⟨word', hShape', fun s hs => ?_, fun s hs => ?_, ?_⟩
  · have hNumStates : (b.addPatternStates p).numStates =
      (b.addStates (b.matchUp 0 p).1 (b.matchUp 0 p).2).1.numStates := rfl
    have hLast : s = (b.addStates (b.matchUp 0 p).1 (b.matchUp 0 p).2).2 ↔ p = word' s :=
      ⟨fun heq => by rw [heq, hWord], fun heq =>
        hShape'.injective s hs _ hLe (heq.symm.trans hWord.symm)⟩
    have hOld : b.matchList s = (patterns.filter (· = word' s)).reverse := by
      by_cases hs' : s ≤ b.numStates
      · rw [hKeep s hs', h.out s hs']
      · rw [h.out_fresh s (by omega)]
        symm
        rw [List.reverse_eq_nil_iff, List.filter_eq_nil_iff]
        intro q hq heq
        obtain ⟨t, ht, hw⟩ := (h.shape.mem q).mp (.of_mem hq)
        have := hShape'.injective s hs t (by rw [hNumStates, hNum]; omega)
          (by rw [hKeep t ht, hw, of_decide_eq_true heq])
        omega
    simp only [Build.addPatternStates, Build.addMatchListEntry_matchList, hMatch, hLast, hOld,
      List.filter_append, List.reverse_append]
    by_cases hp : p = word' s
    · rw [if_pos hp, List.filter_singleton, decide_eq_true hp]
      rfl
    · rw [if_neg hp, List.filter_singleton, decide_eq_false hp]
      rfl
  · simp only [Build.addPatternStates, Build.addMatchListEntry_numStates,
      Build.addMatchListEntry_matchList, hMatch] at hs ⊢
    rw [if_neg (by omega), h.out_fresh s (by omega)]
  · simp only [Build.addPatternStates, Build.addMatchListEntry_numStates, hNum, List.map_append,
      List.sum_append, List.map_cons, List.map_nil, List.sum_cons, List.sum_nil]
    have := h.size
    omega

theorem foldl_trie (patterns : List Pattern) :
    ∃ word, Trie patterns word (patterns.foldl Build.addPatternStates Build.start) := by
  suffices h : ∀ (done : List Pattern) (word : Nat → Pattern) (b : Build), Trie done word b →
      ∃ word', Trie (done ++ patterns) word' (patterns.foldl Build.addPatternStates b) by
    simpa using h [] _ _ start_trie
  induction patterns with
  | nil => exact fun done word b h => ⟨word, by simpa using h⟩
  | cons p patterns ih =>
    intro done word b h
    obtain ⟨word', h'⟩ := h.addPatternStates p
    simpa using ih _ word' _ h'

end Shutter.Acsm
