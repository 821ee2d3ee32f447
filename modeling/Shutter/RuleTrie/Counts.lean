import Shutter.RuleTrie.Represents
import Mathlib.Data.Finset.Insert
import Mathlib.Data.Finset.Card

/-! The reference counts of the trie over runs of insertions and deletions of any strings.  An
insertion of a rule that is present counts it once more, and one deletion makes the rule dead, so
the counts are those of the live rules only as long as no present rule is inserted. -/

namespace Shutter.RuleTrie

/-- The child that the path leads to. -/
def nodeAt : Node → Word → Node
  | node, [] => node
  | .null, _ :: _ => .null
  | .node _ _ child, k :: path => nodeAt (child k) path

/-- A call that changes the trie, on a string of digits, `*` and spaces. -/
inductive Edit where
  | insertForUserid (rule : Word)
  | insertForResourceid (rule : Word)
  | del (rule : Word)

/-- One call on the trie. -/
def Edit.run (t : Trie) : Edit → Option Trie
  | .insertForUserid rule => RuleTrie.insertForUserid t (rule.map i2c)
  | .insertForResourceid rule => RuleTrie.insertForResourceid t (rule.map i2c)
  | .del rule => RuleTrie.del t (rule.map i2c)

/-- What a call does to the set of live rules. -/
def Edit.call (live : Finset Word) : Edit → Finset Word
  | .insertForUserid rule => insert rule live
  | .insertForResourceid rule => insert rule live
  | .del rule => live.erase rule

/-- The rules that have been inserted and not deleted since. -/
def liveWords (edits : List Edit) : Finset Word := edits.foldl Edit.call ∅

/-- The number of live rules that begin with the path. -/
def passing (live : Finset Word) (path : Word) : Nat := (live.filter (path <+: ·)).card

/-- The counts of all nodes but the root are those of the live rules, and `is_null` hides the
branches that no live rule passes through. -/
def Exact (live : Finset Word) (root : Node) : Prop :=
  ∀ path : Word, path ≠ [] →
    Counts (nodeAt root path) (passing live path) ∧
    (isNull (nodeAt root path) = true ↔ ∀ rule ∈ live, ¬path <+: rule)

/-- An insertion of a rule that is dead, with room for one more in the count of its first node. -/
def Edit.Fits (live : Finset Word) : Edit → Prop
  | .insertForUserid rule => rule ∉ live ∧ ∀ k, rule.head? = some k →
      passing live [k] < 32767
  | .insertForResourceid rule => rule ∉ live ∧ ∀ k, rule.head? = some k →
      passing live [k] < 32767
  | .del _ => True

/-- Every call of the run meets the condition where it comes. -/
def AllFit (live : Finset Word) : List Edit → Prop
  | [] => True
  | edit :: edits => edit.Fits live ∧ AllFit (edit.call live) edits

/-! ### Counts -/

@[simp] theorem nodeAt_nil (node : Node) : nodeAt node [] = node := by
  cases node <;> rfl

/-- The count of a node is the number of insertions that begin with its path. -/
theorem Represents.counts {path : Word} (hPath : path ≠ []) {node : Node} {ins : Multiset Word}
    {live : Word → Option Int} (h : Represents node ins live) :
    Counts (nodeAt node path) (ins.countP (path <+: ·)) := by
  induction path generalizing node ins live with
  | nil => exact absurd rfl hPath
  | cons k path ih =>
    cases node with
    | null =>
      obtain ⟨rfl, -⟩ := h
      exact Multiset.countP_zero _
    | node ref patternId child =>
      obtain ⟨hCounts, hChild⟩ := h.2 k
      rw [nodeAt]
      cases path with
      | nil =>
        rw [nodeAt_nil, ← card_below]
        exact hCounts
      | cons j path =>
        rw [← countP_below]
        exact ih (by simp) hChild

theorem passing_eq (live : Finset Word) (path : Word) :
    passing live path = live.val.countP (path <+: ·) := (Multiset.countP_eq_card_filter _ _).symm

/-- The trie below `root` has been built by one insertion for each live rule. -/
structure Counted (live : Finset Word) (root : Node) : Prop where
  words : ∃ words, Represents root live.val words ∧ Live live.val words ∧
    ∀ rule ∈ live, words rule ≠ none
  nonnull : root ≠ .null

theorem Counted.exact {live : Finset Word} {root : Node} (h : Counted live root) :
    Exact live root := by
  intro path hPath
  obtain ⟨⟨words, hRoot, -⟩, -⟩ := h
  have hCounts := hRoot.counts hPath
  refine ⟨passing_eq live path ▸ hCounts, ?_⟩
  rw [isNull_iff hCounts, Multiset.countP_eq_zero]
  rfl

theorem Counted.insert {live : Finset Word} {root : Node} (h : Counted live root) {rule : Word}
    (id : Int) (hId : id ≠ -1) (hDead : rule ∉ live)
    (hRoom : ∀ k, rule.head? = some k → passing live [k] < 32767) :
    ∃ root', insertPath id root (rule.map i2c) = some root' ∧
      Counted (insert rule live) root' := by
  obtain ⟨⟨words, hRoot, hLive, hWords⟩, hNull⟩ := h
  obtain ⟨root', hRun, hNull', -, hRoot'⟩ :=
    hRoot.insertPath_of_room rule id hNull fun k hk => by
    rw [card_below, ← passing_eq]
    exact hRoom k hk
  have hVal : (Insert.insert rule live).val = rule ::ₘ live.val :=
    Finset.insert_val_of_notMem hDead
  refine ⟨root', hRun, ⟨Function.update words rule (some id), hVal ▸ hRoot',
    hVal ▸ hLive.insert rule hId, fun w hw => ?_⟩, hNull'⟩
  by_cases hEq : w = rule
  · rw [hEq, Function.update_self]
    simp
  · rw [Function.update_of_ne hEq]
    exact hWords w (Finset.mem_of_mem_insert_of_ne hw hEq)

/-- A deletion takes the insertion of a live rule back, and does nothing to a dead one. -/
theorem Counted.del {live : Finset Word} {t : Trie} (h : Counted live t.trieTreeRoot)
    (rule : Word) :
    ∃ root', RuleTrie.del t (rule.map i2c) = some { t with trieTreeRoot := root' } ∧
      Counted (live.erase rule) root' := by
  obtain ⟨⟨words, hRoot, hLive, hWords⟩, hNull⟩ := h
  have hDead : words rule = none → live.erase rule = live := fun hNone =>
    Finset.erase_eq_of_notMem fun hMem => hWords rule hMem hNone
  rcases hRoot.follow rule hLive hNull with
    ⟨hFollow, hNone⟩ | ⟨ref, patternId, child, hFollow, hPatternId⟩
  · refine ⟨t.trieTreeRoot, by simp [RuleTrie.del, hFollow], ?_⟩
    rw [hDead hNone]
    exact ⟨⟨words, hRoot, hLive, hWords⟩, hNull⟩
  · cases hWord : words rule with
    | none =>
      rw [hWord] at hPatternId
      refine ⟨t.trieTreeRoot, ?_, ?_⟩
      · rw [RuleTrie.del, hFollow]
        exact if_pos hPatternId
      · rw [hDead hWord]
        exact ⟨⟨words, hRoot, hLive, hWords⟩, hNull⟩
    | some id =>
      rw [hWord] at hPatternId
      have hMem : rule ∈ live := hLive.mem rule id hWord
      have hId : patternId ≠ -1 := hPatternId ▸ hLive.id rule id hWord
      have hVal : live.val = rule ::ₘ (live.erase rule).val := by
        rw [Finset.erase_val, Multiset.cons_erase hMem]
      rw [hVal] at hRoot hLive
      obtain ⟨root', hRun, hNull', -, hRoot'⟩ := hRoot.release rule hNull
      refine ⟨root', by simp [RuleTrie.del, hFollow, hId, hRun],
        ⟨_, hRoot', hLive.del, ?_⟩, hNull'⟩
      intro w hw
      obtain ⟨hNe, hw⟩ := Finset.mem_erase.mp hw
      rw [Function.update_of_ne hNe]
      exact hWords w hw

/-! ### Runs -/

/-- The counts are those of the live rules, and no identifier is -1. -/
structure Trie.Counted (live : Finset Word) (t : Trie) : Prop where
  root : RuleTrie.Counted live t.trieTreeRoot
  userid : 0 ≤ t.globalPatternIdForUserid
  resourceid : 0 ≤ t.globalPatternIdForResourceid

theorem initTrieTree_counted : initTrieTree.Counted ∅ where
  root := ⟨⟨fun _ => none, newNode_represents, ⟨by simp, by simp⟩, by simp⟩, by
    simp [initTrieTree, newNode]⟩
  userid := Int.le_refl 0
  resourceid := Int.one_nonneg

theorem Trie.Counted.run {live : Finset Word} {t : Trie} (h : t.Counted live) {edit : Edit}
    (hFits : edit.Fits live) : ∃ t', edit.run t = some t' ∧ t'.Counted (edit.call live) := by
  obtain ⟨hRoot, hUserid, hResourceid⟩ := h
  cases edit with
  | insertForUserid rule =>
    obtain ⟨root', hRun, hRoot'⟩ :=
      hRoot.insert t.globalPatternIdForUserid (by omega) hFits.1 hFits.2
    refine ⟨{ t with trieTreeRoot := root'
                     globalPatternIdForUserid := t.globalPatternIdForUserid + 2 }, ?_, hRoot', ?_,
      hResourceid⟩
    · simp [Edit.run, insertForUserid, hRun]
    · show 0 ≤ t.globalPatternIdForUserid + 2
      omega
  | insertForResourceid rule =>
    obtain ⟨root', hRun, hRoot'⟩ :=
      hRoot.insert t.globalPatternIdForResourceid (by omega) hFits.1 hFits.2
    refine ⟨{ t with trieTreeRoot := root'
                     globalPatternIdForResourceid := t.globalPatternIdForResourceid + 2 }, ?_,
      hRoot', hUserid, ?_⟩
    · simp [Edit.run, insertForResourceid, hRun]
    · show 0 ≤ t.globalPatternIdForResourceid + 2
      omega
  | del rule =>
    obtain ⟨root', hRun, hRoot'⟩ := hRoot.del rule
    exact ⟨_, hRun, hRoot', hUserid, hResourceid⟩

theorem Trie.Counted.runs {live : Finset Word} {t : Trie} (h : t.Counted live) {edits : List Edit}
    (hFit : AllFit live edits) :
    ∃ t', edits.foldlM Edit.run t = some t' ∧ t'.Counted (edits.foldl Edit.call live) := by
  induction edits generalizing live t with
  | nil => exact ⟨t, rfl, h⟩
  | cons edit edits ih =>
    obtain ⟨t₁, hStep, h₁⟩ := h.run hFit.1
    obtain ⟨t', hRun, h'⟩ := ih h₁ hFit.2
    refine ⟨t', ?_, h'⟩
    rw [List.foldlM_cons, hStep]
    exact hRun

/-- In every run in which no live rule is inserted and no count overflows, the counts are those of
the live rules. -/
theorem counts_exact (edits : List Edit) (hFit : AllFit ∅ edits) :
    ∃ t, edits.foldlM Edit.run initTrieTree = some t ∧
      Exact (liveWords edits) t.trieTreeRoot := by
  obtain ⟨t, hRun, hCounted⟩ := initTrieTree_counted.runs hFit
  exact ⟨t, hRun, hCounted.root.exact⟩

/-- Two rules with a common prefix, one of which is deleted and inserted again. -/
theorem counts_exact_insert_again :
    ∃ t, [Edit.insertForUserid [1, 2], .insertForUserid [1, 3], .del [1, 2],
        .insertForUserid [1, 2]].foldlM Edit.run initTrieTree = some t ∧
      Exact (liveWords [.insertForUserid [1, 2], .insertForUserid [1, 3], .del [1, 2],
        .insertForUserid [1, 2]]) t.trieTreeRoot :=
  counts_exact _ ⟨⟨by decide, by decide⟩, ⟨by decide, by decide⟩, trivial,
    ⟨by decide, by decide⟩,
    trivial⟩

/-- A rule that is inserted twice is counted twice. -/
theorem counts_inexact :
    ¬∀ edits : List Edit, ∃ t, edits.foldlM Edit.run initTrieTree = some t ∧
      Exact (liveWords edits) t.trieTreeRoot := by
  intro h
  obtain ⟨t, hRun, hExact⟩ := h [.insertForUserid [1], .insertForUserid [1]]
  obtain rfl := Option.some.inj hRun
  have hCount : (2 : Int16).toInt = (1 : Nat) := (hExact [1] (by simp)).1
  exact absurd hCount (by decide)

end Shutter.RuleTrie
