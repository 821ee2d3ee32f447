import Shutter.RuleTrie.Match

/-! Insertions and deletions of any strings.  The matcher sees a node through `is_null` only, so the
deletion of a string that has just been inserted restores all its answers, although the nodes of the
string stay in the memory, unless a count has overflowed to 0 in between. -/

namespace Shutter.RuleTrie

/-- The `ref` of a node. -/
def Node.count : Node → Int16
  | .null => 0
  | .node ref _ _ => ref

/-- No count on the path of the pattern is -1, which one more insertion takes to 0. -/
def Open : Node → List UInt8 → Prop
  | .node _ _ child, c :: pattern =>
    match c2i c with
    | some k => (child k).count ≠ -1 ∧ Open (child k) pattern
    | none => True
  | _, _ => True

/-- The trie has room for the pattern with the identifier, which is an `int` like the next one. -/
structure Trie.Room (t : Trie) (id : Int) (pattern : List UInt8) : Prop where
  path : Open t.trieTreeRoot pattern
  id : id + 2 < 2 ^ 31

/-- The first loop of `del` finds a rule with the string. -/
def Trie.Has (t : Trie) (pattern : List UInt8) : Prop :=
  ∃ ref id child, follow t.trieTreeRoot pattern = some (some (.node ref id child)) ∧ id ≠ -1

/-- There is a root, and the next identifiers are such that `del` can tell them from none. -/
structure Trie.Ready (t : Trie) : Prop where
  nonnull : t.trieTreeRoot ≠ .null
  userid : 0 ≤ t.globalPatternIdForUserid
  resourceid : 0 ≤ t.globalPatternIdForResourceid

/-- The matcher sees the same below both nodes. -/
def Alike : Node → Node → Prop
  | .null, .null => True
  | .node _ patternId child, .node _ patternId' child' =>
    patternId = patternId' ∧ ∀ k, isNull (child k) = isNull (child' k) ∧
      (isNull (child k) = false → Alike (child k) (child' k))
  | _, _ => False

/-! ### Strings and words -/

theorem i2c_of_c2i {c : UInt8} {k : Fin 12} (h : c2i c = some k) : i2c k = c := by
  have hBytes : ∀ n : Fin 256, ∀ k, c2i (UInt8.ofNat n.val) = some k →
      i2c k = UInt8.ofNat n.val := by
    decide +kernel
  have hByte := hBytes ⟨c.toNat, c.toNat_lt⟩ k
  rw [UInt8.ofNat_toNat] at hByte
  exact hByte h

/-- The first loop of `del` reaches a node for a word only. -/
theorem follow_word {node tmp : Node} {pattern : List UInt8}
    (h : follow node pattern = some (some tmp)) : ∃ w : Word, pattern = w.map i2c := by
  induction pattern generalizing node with
  | nil => exact ⟨[], rfl⟩
  | cons c pattern ih =>
    cases node with
    | null => cases h
    | node ref patternId child =>
      obtain ⟨k, hk, hRest⟩ := Option.bind_eq_some_iff.mp h
      split at hRest
      · cases hRest
      · obtain ⟨w, rfl⟩ := ih hRest
        exact ⟨k :: w, by rw [List.map_cons, i2c_of_c2i hk]⟩

/-! ### Matches -/

theorem hasChild_congr {child child' : Fin 12 → Node}
    (h : ∀ k, isNull (child k) = isNull (child' k)) : hasChild child = hasChild child' := by
  simp only [hasChild, h]

theorem Alike.refl (node : Node) : Alike node node := by
  induction node with
  | null => trivial
  | node ref patternId child ih => exact ⟨rfl, fun k => ⟨rfl, fun _ => ih k⟩⟩

theorem Alike.match_ {node node' : Node} (h : Alike node node') (pattern : List UInt8)
    (out : Bool × Int) : RuleTrie.match_ node pattern out = RuleTrie.match_ node' pattern out := by
  induction node generalizing node' pattern out with
  | null =>
    cases node' with
    | null => rfl
    | node ref patternId child => exact h.elim
  | node ref patternId child ih =>
    cases node' with
    | null => exact h.elim
    | node ref' patternId' child' =>
      obtain ⟨rfl, hChild⟩ := h
      cases pattern with
      | nil => rfl
      | cons c pattern =>
        have hNull : ∀ k, isNull (child k) = isNull (child' k) := fun k => (hChild k).1
        have hVisit : ∀ (k : Fin 12) (pattern : List UInt8) (out : Bool × Int),
            (if isNull (child k) then some out else RuleTrie.match_ (child k) pattern out) =
              if isNull (child' k) then some out
              else RuleTrie.match_ (child' k) pattern out := by
          intro k pattern out
          rw [← hNull k]
          by_cases hk : isNull (child k) = true
          · rw [if_pos hk, if_pos hk]
          · rw [if_neg hk, if_neg hk]
            exact ih k ((hChild k).2 (eq_false_of_ne_true hk)) pattern out
        simp only [RuleTrie.match_, hasChild_congr hNull, hVisit]

/-! ### An insertion and its deletion -/

theorem retain_visible {ref : Int16} (h : ref ≠ -1) : ref + 1 ≠ 0 := by grind

/-- The count behind an insertion and the deletion is 0 if and only if it was before. -/
theorem unretain_retain {ref : Int16} (h : ref ≠ -1) :
    ((if 1 ≤ ref + 1 then ref + 1 - 1 else ref + 1) == 0) = (ref == 0) := by
  by_cases hLe : 1 ≤ ref + 1
  · rw [if_pos hLe, Int16.add_sub_cancel]
  · have hRef : ref ≠ 0 := by
      rintro rfl
      exact hLe (by decide)
    rw [if_neg hLe, beq_eq_false_iff_ne.mpr (retain_visible h), beq_eq_false_iff_ne.mpr hRef]

/-- The child on the path of an insertion can be seen behind it, and behind the deletion if it could
be seen before. -/
theorem retain_cases {node : Node} {pattern : List UInt8} (hCount : node.count ≠ -1)
    (hOpen : Open node pattern) : ∃ ref patternId child, retain node =
    .node ref patternId child ∧
      ref ≠ 0 ∧ Open (.node ref patternId child) pattern ∧
      isNull (unretain (.node ref patternId child)) = isNull node ∧
      (isNull node = false → ∃ ref', node = .node ref' patternId child) := by
  cases node with
  | null =>
    refine ⟨1, -1, fun _ => .null, rfl, by decide, ?_, rfl, nofun⟩
    cases pattern with
    | nil => trivial
    | cons c pattern =>
      unfold Open
      cases c2i c with
      | none => trivial
      | some k => exact ⟨show (0 : Int16) ≠ -1 by decide, by cases pattern <;> trivial⟩
  | node ref patternId child =>
    refine ⟨ref + 1, patternId, child, rfl, retain_visible hCount, ?_, unretain_retain hCount,
      fun _ => ⟨ref, rfl⟩⟩
    cases pattern with
    | nil => trivial
    | cons c pattern => simpa only [Open] using hOpen

/-- An insertion leaves its identifier at the end of the pattern, and the release of the pattern
then leaves what looks as before, if there was no identifier.  The count of the node itself
stays. -/
theorem insertPath_release {pattern : List UInt8} (hWord : ∀ c ∈ pattern, (c2i c).isSome)
    (id : Int) {ref₀ : Int16} {patternId : Int} {child : Fin 12 → Node}
    (hOpen : Open (.node ref₀ patternId child) pattern) :
    ∃ patternId₁ child₁ patternId₂ child₂, ∀ ref,
      insertPath id (.node ref patternId child) pattern = some (.node ref patternId₁ child₁) ∧
      (∃ ref' child', follow (.node ref patternId₁ child₁) pattern =
        some (some (.node ref' id child'))) ∧
      release (.node ref patternId₁ child₁) pattern = some (.node ref patternId₂ child₂) ∧
      ((∀ ref' id' child', follow (.node ref patternId child) pattern =
          some (some (.node ref' id' child')) → id' = -1) →
        ∀ ref', Alike (.node ref patternId child) (.node ref' patternId₂ child₂)) := by
  induction pattern generalizing ref₀ patternId child with
  | nil =>
    refine ⟨id, child, -1, child, fun ref =>
      ⟨rfl, ⟨ref, child, rfl⟩, rfl, fun hAbsent _ => ?_⟩⟩
    exact ⟨hAbsent ref patternId child rfl, fun k => ⟨rfl, fun _ => Alike.refl _⟩⟩
  | cons c pattern ih =>
    obtain ⟨k, hk⟩ := Option.isSome_iff_exists.mp (hWord c List.mem_cons_self)
    have hRest : ∀ c ∈ pattern, (c2i c).isSome := fun c hc =>
      hWord c (List.mem_cons_of_mem _ hc)
    obtain ⟨hCount, hBelow⟩ : (child k).count ≠ -1 ∧ Open (child k) pattern := by
      simpa only [Open, hk] using hOpen
    obtain ⟨r, id₀, child₀, hRetain, hSeen, hOpen₀, hBack, hSame⟩ :=
      retain_cases hCount hBelow
    obtain ⟨id₁, child₁, id₂, child₂, hAll⟩ := ih hRest hOpen₀
    obtain ⟨hInsert, ⟨r', child', hFollow⟩, -, -⟩ := hAll r
    obtain ⟨-, -, hRelease, -⟩ := hAll (if 1 ≤ r then r - 1 else r)
    refine ⟨patternId, Function.update child k (.node r id₁ child₁), patternId,
      Function.update child k (.node (if 1 ≤ r then r - 1 else r) id₂ child₂),
      fun ref => ⟨?_, ⟨r', child', ?_⟩, ?_, fun hAbsent _ => ⟨rfl, fun j => ?_⟩⟩⟩
    · simp only [insertPath, hk, Option.bind_eq_bind, Option.bind_some, hRetain, hInsert]
    · have hVisible : isNull (.node r id₁ child₁) = false := beq_eq_false_iff_ne.mpr hSeen
      simp only [follow, hk, Option.bind_eq_bind, Option.bind_some, Function.update_self, hVisible,
        Bool.false_eq_true, if_false, hFollow]
    · simp only [release, hk, Option.bind_eq_bind, Option.bind_some,
        Function.update_self, unretain,
        hRelease, Function.update_idem]
    · by_cases hj : j = k
      · subst hj
        rw [Function.update_self]
        refine ⟨hBack.symm, fun hVisible => ?_⟩
        obtain ⟨ref', hChild⟩ := hSame hVisible
        obtain ⟨-, -, -, hAlike⟩ := hAll ref'
        rw [hChild]
        refine hAlike (fun ref'' id' child' hFound => hAbsent ref'' id' child' ?_) _
        simp only [follow, hk, Option.bind_eq_bind, Option.bind_some, hVisible, Bool.false_eq_true,
          if_false]
        rwa [hChild]
      · rw [Function.update_of_ne hj]
        exact ⟨rfl, fun _ => Alike.refl _⟩

/-! ### Tries -/

theorem initTrieTree_ready : initTrieTree.Ready where
  nonnull := by simp [initTrieTree, newNode]
  userid := Int.le_refl 0
  resourceid := Int.one_nonneg

theorem insertPath_keeps {id : Int} {node node' : Node} {pattern : List UInt8}
    (h : insertPath id node pattern = some node') : node' ≠ .null ∧
    node'.count = node.count := by
  unfold insertPath at h
  split at h
  · cases h
  · obtain rfl := Option.some.inj h
    exact ⟨nofun, rfl⟩
  · obtain ⟨k, -, hRest⟩ := Option.bind_eq_some_iff.mp h
    obtain ⟨tmp, -, hRes⟩ := Option.bind_eq_some_iff.mp hRest
    obtain rfl := Option.some.inj hRes
    exact ⟨nofun, rfl⟩

theorem release_keeps {node node' : Node} {pattern : List UInt8}
    (h : release node pattern = some node') : node' ≠ .null ∧ node'.count = node.count := by
  unfold release at h
  split at h
  · cases h
  · obtain rfl := Option.some.inj h
    exact ⟨nofun, rfl⟩
  · obtain ⟨k, -, hRest⟩ := Option.bind_eq_some_iff.mp h
    obtain ⟨tmp, -, hRes⟩ := Option.bind_eq_some_iff.mp hRest
    obtain rfl := Option.some.inj hRes
    exact ⟨nofun, rfl⟩

section Tries

variable {t t' : Trie} {pattern : List UInt8}

theorem Trie.Ready.insertForUserid (h : t.Ready)
    (hRun : RuleTrie.insertForUserid t pattern = some t') : t'.Ready := by
  obtain ⟨root, hRoot, hRes⟩ := Option.bind_eq_some_iff.mp hRun
  obtain rfl := Option.some.inj hRes
  exact ⟨(insertPath_keeps hRoot).1, Int.add_nonneg h.userid (by decide), h.resourceid⟩

theorem Trie.Ready.insertForResourceid (h : t.Ready)
    (hRun : RuleTrie.insertForResourceid t pattern = some t') : t'.Ready := by
  obtain ⟨root, hRoot, hRes⟩ := Option.bind_eq_some_iff.mp hRun
  obtain rfl := Option.some.inj hRes
  exact ⟨(insertPath_keeps hRoot).1, h.userid, Int.add_nonneg h.resourceid (by decide)⟩

/-- A deletion leaves the trie alone, or releases its pattern. -/
theorem del_cases (h : del t pattern = some t') :
    t' = t ∨ ∃ root, release t.trieTreeRoot pattern = some root ∧
      t' = { t with trieTreeRoot := root } := by
  obtain ⟨found, -, hRest⟩ := Option.bind_eq_some_iff.mp h
  split at hRest
  · split at hRest
    · exact Or.inl (Option.some.inj hRest).symm
    · obtain ⟨root, hRelease, hRes⟩ := Option.bind_eq_some_iff.mp hRest
      exact Or.inr ⟨root, hRelease, (Option.some.inj hRes).symm⟩
  · exact Or.inl (Option.some.inj hRest).symm

theorem Trie.Ready.del (h : t.Ready) (hRun : RuleTrie.del t pattern = some t') : t'.Ready := by
  obtain rfl | ⟨root, hRelease, rfl⟩ := del_cases hRun
  · exact h
  · exact ⟨(release_keeps hRelease).1, h.userid, h.resourceid⟩

/-- A string that `del` does not find, and that is inserted and deleted, leaves a trie that answers
as before. -/
theorem Trie.Ready.undo {id : Int} (h : t.Ready) (hId : id ≠ -1) (hRoom : t.Room id pattern)
    (hWord : ∀ c ∈ pattern, (c2i c).isSome) (hAbsent : ¬t.Has pattern) :
    ∃ root, insertPath id t.trieTreeRoot pattern = some root ∧
      ∀ t', t'.trieTreeRoot = root → ∃ t'', RuleTrie.del t' pattern = some t'' ∧
        ∀ tupe id, match_tupe t'' tupe id = match_tupe t tupe id := by
  obtain ⟨hOpen, -⟩ := hRoom
  cases hRoot : t.trieTreeRoot with
  | null => exact absurd hRoot h.nonnull
  | node ref patternId child =>
    rw [hRoot] at hOpen
    obtain ⟨id₁, child₁, id₂, child₂, hAll⟩ := insertPath_release hWord id hOpen
    obtain ⟨hInsert, ⟨ref', child', hFollow⟩, hRelease, hAlike⟩ := hAll ref
    refine ⟨_, hInsert, fun t' hRoot' =>
      ⟨{ t' with trieTreeRoot := .node ref id₂ child₂ }, ?_, fun tupe _ => ?_⟩⟩
    · simp only [RuleTrie.del, hRoot', hFollow, hRelease, if_neg hId, Option.bind_eq_bind,
        Option.bind_some]
    · rw [match_tupe, match_tupe, hRoot]
      refine ((hAlike fun ref id' child hFound => ?_) ref).match_ tupe _ |>.symm
      by_contra hLive
      exact hAbsent ⟨ref, id', child, by rw [hRoot, hFound], hLive⟩

end Tries

end Shutter.RuleTrie
