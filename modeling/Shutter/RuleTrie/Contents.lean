import Shutter.RuleTrie.Undo

/-! The rules that a trie has, behind any number of insertions.  A count is exact until it
overflows, and negative from then on, unless an insertion takes it from -1 to 0.  A negative count
hides no rule, and a deletion leaves it as it is. -/

namespace Shutter.RuleTrie

/-- The count of a node is the number of insertions through it, or it has overflowed. -/
def Bounds : Node → Nat → Prop
  | .null, n => n = 0
  | .node ref _ _, n => ref.toInt = n ∨ ref < 0

/-- The trie stands for some live words. -/
structure Trie.Standing (t : Trie) : Prop where
  ready : t.Ready
  root : ∃ ins live, RepresentsBy Bounds t.trieTreeRoot ins live ∧ Live ins live

/-- The counts below the node are between 0 and `n`. -/
def Bounded (n : Nat) : Node → Prop
  | .null => True
  | .node _ _ child => ∀ k, 0 ≤ (child k).count.toInt ∧ (child k).count.toInt ≤ n ∧
      Bounded n (child k)

/-- The counts and the identifiers are those of at most `n` insertions. -/
structure Trie.Few (n : Nat) (t : Trie) : Prop where
  counts : Bounded n t.trieTreeRoot
  userid : t.globalPatternIdForUserid ≤ 2 * n + 1
  resourceid : t.globalPatternIdForResourceid ≤ 2 * n + 1

/-! ### Counts -/

theorem unretain_bounds {node : Node} {n : Nat} (h : Bounds node (n + 1)) :
    unretain node ≠ .null ∧ Bounds (unretain node) n := by
  cases node with
  | null => cases h
  | node ref patternId child =>
    rcases h with hExact | hOver
    · have hCounts : Counts (.node ref patternId child) (n + 1) := hExact
      exact ⟨(unretain_counts hCounts).1, Or.inl (unretain_counts hCounts).2⟩
    · have hLt : ¬1 ≤ ref := by
        rw [Int16.not_le]
        exact Int16.lt_trans hOver (by decide)
      simp only [unretain, if_neg hLt]
      exact ⟨by simp, Or.inr hOver⟩

theorem bounds_counting : Counting Bounds where
  null := rfl
  top h := h
  retain_null := Or.inl rfl
  unretain h := unretain_bounds h
  hidden {node n} h hNull := by
    cases node with
    | null => exact h
    | node ref patternId child =>
      obtain rfl : ref = 0 := by simpa [isNull] using hNull
      rcases h with hExact | hOver
      · have hCounts : Counts (.node 0 patternId child) n := hExact
        exact (isNull_iff hCounts).mp rfl
      · exact absurd hOver (by decide)

theorem retain_bounds {node : Node} {n : Nat} (h : Bounds node n) (hCount : node.count ≠ -1) :
    Bounds (retain node) (n + 1) := by
  cases node with
  | null =>
    obtain rfl : n = 0 := h
    exact Or.inl rfl
  | node ref patternId child =>
    have hMinus : ref.toInt ≠ -1 := fun hEq => hCount (Int16.toInt_inj.mp hEq)
    have hLow := Int16.le_toInt ref
    have hHigh := Int16.toInt_lt ref
    have hSum : (ref + 1).toInt = (ref.toInt + 1).bmod (2 ^ 16) := Int16.toInt_add ref 1
    simp only [Bounds, retain, Int16.lt_iff_toInt_lt, Int16.toInt_zero] at h ⊢
    rw [hSum]
    by_cases hFull : ref.toInt = 32767
    · rw [hFull]
      exact Or.inr (by decide)
    · rw [Int.bmod_eq_of_le (by omega) (by omega)]
      omega

theorem Open.passes {node : Node} {w : Word} (h : Open node (w.map i2c)) :
    Passes Bounds node w := by
  induction w generalizing node with
  | nil => cases node <;> trivial
  | cons k w ih =>
    cases node with
    | null => trivial
    | node ref patternId child =>
      obtain ⟨hCount, hBelow⟩ : (child k).count ≠ -1 ∧ Open (child k) (w.map i2c) := by
        simpa only [List.map_cons, Open, c2i_i2c] using h
      exact ⟨fun n hn => retain_bounds hn hCount, ih hBelow⟩

/-! ### Rules -/

theorem i2c_injective : Function.Injective i2c := fun i j h => by
  have hEq := congrArg c2i h
  rwa [c2i_i2c, c2i_i2c, Option.some.injEq] at hEq

section Standing

variable {t t' : Trie} {ins : Multiset Word} {live : Word → Option Int} {rule : List UInt8}

theorem has_iff (h : RepresentsBy Bounds t.trieTreeRoot ins live) (hLive : Live ins live)
    (hNull : t.trieTreeRoot ≠ .null) (rule : List UInt8) :
    t.Has rule ↔ ∃ w : Word, rule = w.map i2c ∧ live w ≠ none := by
  constructor
  · rintro ⟨ref, id, child, hFollow, hId⟩
    obtain ⟨w, rfl⟩ := follow_word hFollow
    refine ⟨w, rfl, fun hNone => hId ?_⟩
    rcases RepresentsBy.follow bounds_counting w h hLive hNull with
      ⟨hBreak, -⟩ | ⟨_, _, _, hFollow', hFound⟩
    · rw [hBreak] at hFollow
      cases hFollow
    · rw [hFollow'] at hFollow
      cases hFollow
      rw [hFound, hNone]
      rfl
  · rintro ⟨w, rfl, hSome⟩
    obtain ⟨id, hWord⟩ := Option.ne_none_iff_exists'.mp hSome
    obtain ⟨ref, patternId, child, hFollow, hFound⟩ :=
      (RepresentsBy.follow bounds_counting w h hLive hNull).resolve_left fun hNone =>
        hSome hNone.2
    rw [hWord] at hFound
    exact ⟨ref, patternId, child, hFollow, hFound ▸ hLive.id w id hWord⟩

theorem initTrieTree_standing : initTrieTree.Standing where
  ready := initTrieTree_ready
  root := ⟨0, fun _ => none, bounds_counting.newNode, by simp, by simp⟩

theorem not_has_init : ¬initTrieTree.Has rule := by
  rw [has_iff (t := initTrieTree) bounds_counting.newNode ⟨by simp, by simp⟩
    initTrieTree_ready.nonnull]
  simp

/-- An insertion with room adds its rule, and no other. -/
theorem Trie.Standing.insertPath {w : Word} {id : Int} (h : t.Standing) (hId : id ≠ -1)
    (hRoom : t.Room id (w.map i2c)) :
    ∃ root, RuleTrie.insertPath id t.trieTreeRoot (w.map i2c) = some root ∧
      ∀ t' : Trie, t'.trieTreeRoot = root → t'.Ready → t'.Standing ∧
        ∀ other, t'.Has other ↔ other = w.map i2c ∨ t.Has other := by
  obtain ⟨⟨hNull, -, -⟩, ins, live, hRoot, hLive⟩ := h
  obtain ⟨root, hRun, -, -, hRoot'⟩ :=
    RepresentsBy.insertPath bounds_counting w id hRoot hNull hRoom.path.passes
  refine ⟨root, hRun, fun t' hEq hReady => ?_⟩
  obtain rfl := hEq
  have hLive' := hLive.insert w hId
  refine ⟨⟨hReady, _, _, hRoot', hLive'⟩, fun other => ?_⟩
  rw [has_iff hRoot' hLive' hReady.nonnull, has_iff hRoot hLive hNull]
  constructor
  · rintro ⟨v, rfl, hSome⟩
    by_cases hv : v = w
    · exact Or.inl (hv ▸ rfl)
    · rw [Function.update_of_ne hv] at hSome
      exact Or.inr ⟨v, rfl, hSome⟩
  · rintro (rfl | ⟨v, rfl, hSome⟩)
    · exact ⟨w, rfl, by simp⟩
    · refine ⟨v, rfl, ?_⟩
      rw [Function.update_apply]
      split
      · simp
      · exact hSome

/-- A deletion takes its rule out, and no other. -/
theorem Trie.Standing.del (h : t.Standing) (w : Word) :
    ∃ t', RuleTrie.del t (w.map i2c) = some t' ∧ t'.Standing ∧
      ∀ other, t'.Has other ↔ t.Has other ∧ other ≠ w.map i2c := by
  obtain ⟨hReady, ins, live, hRoot, hLive⟩ := h
  have hHas := has_iff hRoot hLive hReady.nonnull
  have hDead : live w = none → ∀ other, t.Has other ↔ t.Has other ∧
    other ≠ w.map i2c := by
    intro hNone other
    refine ⟨fun hOther => ⟨hOther, ?_⟩, And.left⟩
    rintro rfl
    obtain ⟨v, hv, hSome⟩ := (hHas _).mp hOther
    exact hSome ((i2c_injective.list_map hv) ▸ hNone)
  rcases RepresentsBy.follow bounds_counting w hRoot hLive hReady.nonnull with
    ⟨hBreak, hNone⟩ | ⟨ref, patternId, child, hFollow, hFound⟩
  · exact ⟨t, by rw [RuleTrie.del, hBreak]; rfl, ⟨hReady, ins, live, hRoot, hLive⟩,
      hDead hNone⟩
  cases hWord : live w with
  | none =>
    refine ⟨t, ?_, ⟨hReady, ins, live, hRoot, hLive⟩, hDead hWord⟩
    rw [RuleTrie.del, hFollow]
    exact if_pos (by rw [hFound, hWord]; rfl)
  | some id =>
    have hId : patternId ≠ -1 := by
      rw [hFound, hWord]
      exact hLive.id w id hWord
    obtain ⟨ins, rfl⟩ := Multiset.exists_cons_of_mem (hLive.mem w id hWord)
    obtain ⟨root, hRelease, hNull', -, hRoot'⟩ :=
      RepresentsBy.release bounds_counting w hRoot hReady.nonnull
    refine ⟨{ t with trieTreeRoot := root }, ?_,
      ⟨⟨hNull', hReady.userid, hReady.resourceid⟩, ins, _, hRoot', hLive.del⟩,
        fun other => ?_⟩
    · simp only [RuleTrie.del, hFollow, hRelease, if_neg hId, Option.bind_eq_bind,
        Option.bind_some]
    · rw [has_iff hRoot' hLive.del hNull', hHas]
      constructor
      · rintro ⟨v, rfl, hSome⟩
        have hv : v ≠ w := by
          rintro rfl
          simp at hSome
        rw [Function.update_of_ne hv] at hSome
        exact ⟨⟨v, rfl, hSome⟩, fun hEq => hv (i2c_injective.list_map hEq)⟩
      · rintro ⟨⟨v, rfl, hSome⟩, hNe⟩
        refine ⟨v, rfl, ?_⟩
        rwa [Function.update_of_ne fun hv => hNe (congrArg (List.map i2c) hv)]

end Standing

/-! ### Few insertions -/

theorem Bounded.mono {n m : Nat} {node : Node} (h : Bounded n node) (hLe : n ≤ m) :
    Bounded m node := by
  induction node with
  | null => trivial
  | node ref patternId child ih =>
    intro k
    obtain ⟨hLow, hHigh, hBelow⟩ := h k
    exact ⟨hLow, by omega, ih k hBelow⟩

theorem Bounded.update {n : Nat} {ref ref' : Int16} {patternId patternId' : Int}
    {child : Fin 12 → Node} (h : Bounded n (.node ref patternId child)) {k : Fin 12} {tmp : Node}
    (hTmp : 0 ≤ tmp.count.toInt ∧ tmp.count.toInt ≤ n ∧ Bounded n tmp) :
    Bounded n (.node ref' patternId' (Function.update child k tmp)) := by
  intro j
  by_cases hj : j = k
  · subst hj
    rwa [Function.update_self]
  · rw [Function.update_of_ne hj]
    exact h j

theorem bounded_newNode (n : Nat) : Bounded n newNode := by
  intro k
  refine ⟨show 0 ≤ (0 : Int16).toInt by decide, ?_, trivial⟩
  show (0 : Int16).toInt ≤ n
  rw [Int16.toInt_zero]
  exact Int.natCast_nonneg n

theorem Bounded.retain {n : Nat} {node : Node} (hBound : n < 32767)
    (h : 0 ≤ node.count.toInt ∧ node.count.toInt ≤ n ∧ Bounded n node) :
    0 ≤ (retain node).count.toInt ∧ (retain node).count.toInt ≤ (n + 1 : Nat) ∧
      Bounded n (RuleTrie.retain node) := by
  obtain ⟨hLow, hHigh, hBelow⟩ := h
  cases node with
  | null =>
    refine ⟨show 0 ≤ (1 : Int16).toInt by decide, ?_, bounded_newNode n⟩
    show (1 : Int16).toInt ≤ (n + 1 : Nat)
    rw [Int16.toInt_one]
    omega
  | node ref patternId child =>
    have hSum : (ref + 1).toInt = ref.toInt + 1 := by
      rw [Int16.toInt_add, Int16.toInt_one]
      simp only [Node.count] at hLow hHigh
      exact Int.bmod_eq_of_le (by omega) (by omega)
    simp only [RuleTrie.retain, Node.count, hSum] at hLow hHigh ⊢
    exact ⟨by omega, by omega, hBelow⟩

theorem Bounded.insertPath {n : Nat} {id : Int} {node node' : Node} {pattern : List UInt8}
    (h : Bounded n node) (hBound : n < 32767)
    (hRun : RuleTrie.insertPath id node pattern = some node') : Bounded (n + 1) node' := by
  induction pattern generalizing node node' with
  | nil =>
    cases node with
    | null => cases hRun
    | node ref patternId child =>
      obtain rfl := Option.some.inj hRun
      exact h.mono (Nat.le_succ n)
  | cons c pattern ih =>
    cases node with
    | null => cases hRun
    | node ref patternId child =>
      obtain ⟨k, -, hRest⟩ := Option.bind_eq_some_iff.mp hRun
      obtain ⟨tmp, hTmp, hRes⟩ := Option.bind_eq_some_iff.mp hRest
      obtain rfl := Option.some.inj hRes
      obtain ⟨hLow, hHigh, hBelow⟩ := Bounded.retain hBound (h k)
      refine (h.mono (Nat.le_succ n)).update ?_
      rw [(insertPath_keeps hTmp).2]
      exact ⟨hLow, hHigh, ih hBelow hTmp⟩

theorem Bounded.unretain {n : Nat} {node : Node}
    (h : 0 ≤ node.count.toInt ∧ node.count.toInt ≤ n ∧ Bounded n node) :
    0 ≤ (unretain node).count.toInt ∧ (unretain node).count.toInt ≤ n ∧
      Bounded n (RuleTrie.unretain node) := by
  obtain ⟨hLow, hHigh, hBelow⟩ := h
  cases node with
  | null => exact ⟨hLow, hHigh, trivial⟩
  | node ref patternId child =>
    simp only [RuleTrie.unretain, Node.count] at hLow hHigh ⊢
    split
    · rename_i hLe
      have hOne := Int16.le_iff_toInt_le.mp hLe
      rw [Int16.toInt_one] at hOne
      have hDiff : (ref - 1).toInt = ref.toInt - 1 := by
        have hLt := Int16.toInt_lt ref
        rw [Int16.toInt_sub, Int16.toInt_one]
        exact Int.bmod_eq_of_le (by omega) (by omega)
      rw [hDiff]
      exact ⟨by omega, by omega, hBelow⟩
    · exact ⟨hLow, hHigh, hBelow⟩

theorem Bounded.release {n : Nat} {node node' : Node} {pattern : List UInt8} (h : Bounded n node)
    (hRun : RuleTrie.release node pattern = some node') : Bounded n node' := by
  induction pattern generalizing node node' with
  | nil =>
    cases node with
    | null => cases hRun
    | node ref patternId child =>
      obtain rfl := Option.some.inj hRun
      exact h
  | cons c pattern ih =>
    cases node with
    | null => cases hRun
    | node ref patternId child =>
      obtain ⟨k, -, hRest⟩ := Option.bind_eq_some_iff.mp hRun
      obtain ⟨tmp, hTmp, hRes⟩ := Option.bind_eq_some_iff.mp hRest
      obtain rfl := Option.some.inj hRes
      obtain ⟨hLow, hHigh, hBelow⟩ := Bounded.unretain (h k)
      refine h.update ?_
      rw [(release_keeps hTmp).2]
      exact ⟨hLow, hHigh, ih hBelow hTmp⟩

theorem Bounded.opens {n : Nat} {node : Node} (h : Bounded n node) (pattern : List UInt8) :
    Open node pattern := by
  induction pattern generalizing node with
  | nil => cases node <;> trivial
  | cons c pattern ih =>
    cases node with
    | null => trivial
    | node ref patternId child =>
      unfold Open
      split
      · rename_i k hk
        obtain ⟨hLow, -, hBelow⟩ := h k
        refine ⟨fun hMinus => ?_, ih hBelow⟩
        rw [hMinus] at hLow
        exact absurd hLow (by decide)
      · trivial

section Few

variable {n : Nat} {t t' : Trie} {pattern : List UInt8}

theorem initTrieTree_few : initTrieTree.Few 0 where
  counts := bounded_newNode 0
  userid := by decide
  resourceid := by decide

theorem Trie.Few.mono {m : Nat} (h : t.Few n) (hLe : n ≤ m) : t.Few m := by
  obtain ⟨hCounts, hUserid, hResourceid⟩ := h
  exact ⟨hCounts.mono hLe, by omega, by omega⟩

theorem Trie.Few.insertForUserid (h : t.Few n) (hBound : n < 32767)
    (hRun : RuleTrie.insertForUserid t pattern = some t') : t'.Few (n + 1) := by
  obtain ⟨hCounts, hUserid, hResourceid⟩ := h
  obtain ⟨root, hRoot, hRes⟩ := Option.bind_eq_some_iff.mp hRun
  obtain rfl := Option.some.inj hRes
  exact ⟨hCounts.insertPath hBound hRoot, by simp only; omega, by simp only; omega⟩

theorem Trie.Few.insertForResourceid (h : t.Few n) (hBound : n < 32767)
    (hRun : RuleTrie.insertForResourceid t pattern = some t') : t'.Few (n + 1) := by
  obtain ⟨hCounts, hUserid, hResourceid⟩ := h
  obtain ⟨root, hRoot, hRes⟩ := Option.bind_eq_some_iff.mp hRun
  obtain rfl := Option.some.inj hRes
  exact ⟨hCounts.insertPath hBound hRoot, by simp only; omega, by simp only; omega⟩

theorem Trie.Few.del (h : t.Few n) (hRun : RuleTrie.del t pattern = some t') : t'.Few n := by
  obtain rfl | ⟨root, hRelease, rfl⟩ := del_cases hRun
  · exact h
  · exact ⟨h.counts.release hRelease, h.userid, h.resourceid⟩

/-- At most 32767 insertions leave room for any string. -/
theorem Trie.Few.room (h : t.Few n) (hBound : n ≤ 32767) (pattern : List UInt8) :
    t.Room t.globalPatternIdForUserid pattern ∧
      t.Room t.globalPatternIdForResourceid pattern := by
  obtain ⟨hCounts, hUserid, hResourceid⟩ := h
  exact ⟨⟨hCounts.opens pattern, by omega⟩, ⟨hCounts.opens pattern, by omega⟩⟩

end Few

end Shutter.RuleTrie
