import Shutter.RuleTrie.Represents

/-! The matcher of the trie.  `match_` tries the exact child and the `*` child of each node, so it
visits the words that agree with the tuple, where `*` agrees with the rest of a field. -/

namespace Shutter.RuleTrie

/-- A word of the trie agrees with a tuple, as `match_` walks: `*` takes the rest of a field. -/
inductive Agree : Word → Word → Prop
  | nil : Agree [] []
  | same {k : Fin 12} {w t : Word} : Agree w t → Agree (k :: w) (k :: t)
  | star {w t : Word} : t ≠ [] → Agree w (t.dropWhile (· ≠ 11)) → Agree (10 :: w) t

theorem agree_cons_iff {w t : Word} {k : Fin 12} :
    Agree w (k :: t) ↔ (∃ v, w = k :: v ∧ Agree v t) ∨
      ∃ v, w = 10 :: v ∧ Agree v ((k :: t).dropWhile (· ≠ 11)) := by
  constructor
  · rintro (_ | h | ⟨-, h⟩)
    · exact Or.inl ⟨_, rfl, h⟩
    · exact Or.inr ⟨_, rfl, h⟩
  · rintro (⟨v, rfl, h⟩ | ⟨v, rfl, h⟩)
    · exact .same h
    · exact .star (by simp) h

theorem agree_nil_iff {w : Word} : Agree w [] ↔ w = [] := by
  constructor
  · rintro (_ | _ | ⟨h, -⟩)
    · rfl
    · exact absurd rfl h
  · rintro rfl
    exact .nil

/-- From the pair `out` the matcher reports identifiers of `ids`: it has found a rule when it had
or when there is one, and the identifier is that of such a rule or the one before. -/
def Reports (ids : Int → Prop) (out out' : Bool × Int) : Prop :=
  (out'.1 = true ↔ out.1 = true ∨ ∃ id, ids id) ∧ (out' = out ∨ ids out'.2)

theorem Reports.refl {ids : Int → Prop} (h : ∀ id, ¬ids id) (out : Bool × Int) :
    Reports ids out out := ⟨by simp [h], Or.inl rfl⟩

theorem Reports.trans {ids ids' : Int → Prop} {out out' out'' : Bool × Int}
    (h : Reports ids out out') (h' : Reports ids' out' out'') :
    Reports (fun id => ids id ∨ ids' id) out out'' := by
  obtain ⟨hFind, hId⟩ := h
  obtain ⟨hFind', hId'⟩ := h'
  refine ⟨by rw [hFind', hFind, exists_or, or_assoc], ?_⟩
  rcases hId' with rfl | hId'
  · exact hId.imp_right Or.inl
  · exact Or.inr (Or.inr hId')

/-- The identifiers of the live words that agree with a tuple. -/
def Matching (live : Word → Option Int) (t : Word) (id : Int) : Prop :=
  ∃ w, live w = some id ∧ Agree w t

theorem matching_cons_iff {live : Word → Option Int} {k : Fin 12} {t : Word} {id : Int} :
    Matching live (k :: t) id ↔ Matching (fun w => live (k :: w)) t id ∨
      Matching (fun w => live (10 :: w)) ((k :: t).dropWhile (· ≠ 11)) id := by
  unfold Matching
  constructor
  · rintro ⟨w, hLive, hAgree⟩
    rcases agree_cons_iff.mp hAgree with ⟨v, rfl, h⟩ | ⟨v, rfl, h⟩
    · exact Or.inl ⟨v, hLive, h⟩
    · exact Or.inr ⟨v, hLive, h⟩
  · rintro (⟨v, hLive, h⟩ | ⟨v, hLive, h⟩)
    · exact ⟨k :: v, hLive, .same h⟩
    · exact ⟨10 :: v, hLive, .star (by simp) h⟩

theorem matching_nil_iff {live : Word → Option Int} {id : Int} :
    Matching live [] id ↔ live [] = some id := by
  simp [Matching, agree_nil_iff]

theorem dropWhile_map_i2c (t : Word) :
    (t.map i2c).dropWhile (· ≠ 32) = (t.dropWhile (· ≠ 11)).map i2c := by
  have hSpace : ∀ k : Fin 12, i2c k = 32 ↔ k = 11 := by decide
  rw [List.dropWhile_map]
  congr 2
  funext k
  simp [hSpace]

/-- The identifier of the node that a word leads to, past the children that are not null. -/
def visible : Node → Word → Option Int
  | .null, _ => none
  | .node _ patternId _, [] => if patternId = -1 then none else some patternId
  | .node _ _ child, k :: w => if isNull (child k) then none else visible (child k) w

theorem visit_child (ref : Int16) (patternId : Int) (child : Fin 12 → Node)
    (k : Fin 12) (t : Word) (out : Bool × Int)
    (hChild : child k ≠ .null → ∃ out', match_ (child k) (t.map i2c) out = some out' ∧
      Reports (Matching (visible (child k)) t) out out') :
    ∃ out', (if isNull (child k) then some out else match_ (child k) (t.map i2c) out)
      = some out' ∧
      Reports (Matching (fun w => visible (.node ref patternId child) (k :: w)) t) out out' := by
  by_cases hNull : isNull (child k) = true
  · refine ⟨out, if_pos hNull, Reports.refl ?_ out⟩
    rintro id ⟨w, hw, -⟩
    simp [visible, hNull] at hw
  · obtain ⟨out', hRun, hOut⟩ := hChild fun heq => hNull (by rw [heq]; rfl)
    refine ⟨out', by rw [if_neg hNull, hRun], ?_⟩
    have hSame : (fun w => visible (.node ref patternId child) (k :: w)) = visible (child k) := by
      funext w
      rw [visible, if_neg hNull]
    rw [hSame]
    exact hOut

/-- `match_` reports the identifiers of the visible words that agree with the tuple. -/
theorem match_visible {node : Node} (hNode : node ≠ .null) (t : Word) (out : Bool × Int) :
    ∃ out', match_ node (t.map i2c) out = some out' ∧
      Reports (Matching (visible node) t) out out' := by
  induction node generalizing t out with
  | null => exact absurd rfl hNode
  | node ref patternId child ih =>
    cases t with
    | nil =>
      obtain ⟨find, id⟩ := out
      refine ⟨_, rfl, ?_⟩
      simp only [Reports, matching_nil_iff, visible]
      by_cases hId : patternId = -1
      · simp [hId]
      · simp [hId]
    | cons k t =>
      have hVisit : ∀ (k : Fin 12) (t : Word) (out : Bool × Int), ∃ out',
          (if isNull (child k) then some out else match_ (child k) (t.map i2c) out) = some out' ∧
            Reports (Matching (fun w => visible (.node ref patternId child) (k :: w)) t) out out' :=
        fun k t out => visit_child ref patternId child k t out fun hChild => ih k hChild t out
      have hSplit : Matching (visible (.node ref patternId child)) (k :: t) = fun id =>
          Matching (fun w => visible (.node ref patternId child) (k :: w)) t id ∨
          Matching (fun w => visible (.node ref patternId child) (10 :: w))
            ((k :: t).dropWhile (· ≠ 11)) id :=
        funext fun id => propext matching_cons_iff
      obtain ⟨out₁, hRun₁, hOut₁⟩ := hVisit k t out
      obtain ⟨out₂, hRun₂, hOut₂⟩ := hVisit 10 ((k :: t).dropWhile (· ≠ 11)) out₁
      rw [← dropWhile_map_i2c, List.map_cons] at hRun₂
      by_cases hChildren : hasChild child = true
      · refine ⟨out₂, ?_, hSplit ▸ hOut₁.trans hOut₂⟩
        simp only [List.map_cons, match_, hChildren, Bool.not_true, Bool.false_eq_true, if_false,
          c2i_i2c, Option.bind_eq_bind, Option.bind_some, hRun₁, hRun₂]
      · have hNull : ∀ k, isNull (child k) = true := by simpa [hasChild] using hChildren
        rw [if_pos (hNull _), Option.some.injEq] at hRun₁ hRun₂
        subst hRun₁ hRun₂
        refine ⟨out, ?_, hSplit ▸ hOut₁.trans hOut₂⟩
        simp [match_, hChildren]

theorem Represents.visible {node : Node} {ins : Multiset Word} {live : Word → Option Int}
    (h : Represents node ins live) (hLive : Live ins live) (hNode : node ≠ .null) :
    visible node = live := by
  funext w
  induction w generalizing node ins live with
  | nil =>
    cases node with
    | null => exact absurd rfl hNode
    | node ref patternId child =>
      rw [RuleTrie.visible, h.1]
      cases hNil : live [] with
      | none => rfl
      | some id => exact if_neg (hLive.id [] id hNil)
  | cons k w ih =>
    cases node with
    | null => exact absurd rfl hNode
    | node ref patternId child =>
      obtain ⟨hCounts, hChild⟩ := h.2 k
      rw [RuleTrie.visible]
      by_cases hNull : isNull (child k) = true
      · have hEmpty := Multiset.card_eq_zero.mp ((isNull_iff hCounts).mp hNull)
        rw [if_pos hNull]
        cases hw : live (k :: w) with
        | none => rfl
        | some id =>
          have := (hLive.below k).mem w id hw
          simp [hEmpty] at this
      · rw [if_neg hNull]
        exact ih hChild (hLive.below k) fun heq => hNull (by rw [heq]; rfl)

/-- `match_` reports the identifiers of the live words that agree with the tuple. -/
theorem Represents.match_ {node : Node} {ins : Multiset Word} {live : Word → Option Int}
    (h : Represents node ins live) (hLive : Live ins live) (hNode : node ≠ .null) (t : Word)
    (out : Bool × Int) :
    ∃ out', match_ node (t.map i2c) out = some out' ∧ Reports (Matching live t) out out' :=
  h.visible hLive hNode ▸ match_visible hNode t out

end Shutter.RuleTrie
