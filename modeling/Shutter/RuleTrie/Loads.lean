import Shutter.RuleTrie.Match

/-! The trie behind insertions only, of any number.  The counts are those of the insertions modulo
the range of a short, so a node hides its branch when the number of the insertions through it is a
multiple of 65536. -/

namespace Shutter.RuleTrie

/-- The reference count of a node is the number of insertions through it, as a short. -/
def Refs : Node → Nat → Prop
  | .null, n => n = 0
  | .node ref _ _, n => ref = Int16.ofNat n

/-- A node stands for the insertions below it. -/
def Loaded : Node → Multiset Word → Prop
  | .null, ins => ins = 0
  | .node _ patternId child, ins =>
    (patternId ≠ -1 ↔ [] ∈ ins) ∧
    ∀ k, Refs (child k) (below k ins).card ∧ Loaded (child k) (below k ins)

/-- On the path of the word no count is a multiple of 65536. -/
def Shown (ins : Multiset Word) (w : Word) : Prop :=
  ∀ path : Word, path ≠ [] → path <+: w → ¬65536 ∣ ins.countP (path <+: ·)

theorem refs_isNull {node : Node} {n : Nat} (h : Refs node n) : isNull node = true ↔
    65536 ∣ n := by
  cases node with
  | null =>
    obtain rfl : n = 0 := h
    simp [isNull]
  | node ref patternId child =>
    obtain rfl : ref = Int16.ofNat n := h
    rw [isNull, beq_iff_eq, ← Int16.toInt_inj, Int16.toInt_ofNat']
    show (n : Int).bmod 65536 = 0 ↔ _
    rw [← Int.dvd_iff_bmod_eq_zero]
    omega

theorem retain_refs {node : Node} {n : Nat} (h : Refs node n) : Refs (retain node) (n + 1) := by
  cases node with
  | null =>
    obtain rfl : n = 0 := h
    rfl
  | node ref patternId child =>
    obtain rfl : ref = Int16.ofNat n := h
    exact (Int16.ofNat_add n 1).symm

theorem newNode_loaded : Loaded newNode 0 := by
  simp [newNode, Loaded, below, Refs]

theorem retain_loaded {node : Node} {ins : Multiset Word} (h : Loaded node ins) :
    Loaded (retain node) ins := by
  cases node with
  | null =>
    obtain rfl : ins = 0 := h
    exact newNode_loaded
  | node ref patternId child => exact h

theorem Loaded.insertPath (w : Word) (id : Int) (hId : id ≠ -1) {node : Node}
    {ins : Multiset Word} (h : Loaded node ins) (hNode : node ≠ .null) :
    ∃ node', insertPath id node (w.map i2c) = some node' ∧ node' ≠ .null ∧
      (∀ n, Refs node n → Refs node' n) ∧ Loaded node' (w ::ₘ ins) := by
  induction w generalizing node ins with
  | nil =>
    cases node with
    | null => exact absurd rfl hNode
    | node ref patternId child =>
      refine ⟨_, rfl, by simp, fun _ hn => hn, by simp [hId], fun k => ?_⟩
      rw [below_cons_nil]
      exact h.2 k
  | cons k w ih =>
    cases node with
    | null => exact absurd rfl hNode
    | node ref patternId child =>
      obtain ⟨hRefs, hChild⟩ := h.2 k
      obtain ⟨tmp, hRun, -, hKeep, hTmp⟩ := ih (retain_loaded hChild) (retain_ne_null _)
      refine ⟨.node ref patternId (Function.update child k tmp), ?_, by simp, fun _ hn => hn,
        by simpa using h.1, fun j => ?_⟩
      · simp only [List.map_cons, RuleTrie.insertPath, c2i_i2c, Option.bind_eq_bind,
          Option.bind_some, hRun]
      · by_cases hj : j = k
        · subst hj
          rw [Function.update_self, below_cons_self, Multiset.card_cons]
          exact ⟨hKeep _ (retain_refs hRefs), hTmp⟩
        · rw [Function.update_of_ne hj, below_cons_of_ne (Ne.symm hj)]
          exact h.2 j

theorem shown_cons {ins : Multiset Word} {k : Fin 12} {w : Word} :
    Shown ins (k :: w) ↔ ¬65536 ∣ (below k ins).card ∧ Shown (below k ins) w := by
  constructor
  · intro h
    refine ⟨card_below k ins ▸ h [k] (by simp) (by simp), fun path _ hPath => ?_⟩
    rw [countP_below]
    exact h (k :: path) (by simp) (List.cons_prefix_cons.mpr ⟨rfl, hPath⟩)
  · rintro ⟨hFirst, hRest⟩ path hNil hPath
    obtain ⟨j, path, rfl⟩ := List.exists_cons_of_ne_nil hNil
    obtain ⟨rfl, hRestPath⟩ := List.cons_prefix_cons.mp hPath
    cases path with
    | nil => exact card_below j ins ▸ hFirst
    | cons i path => exact countP_below j (i :: path) ins ▸ hRest (i :: path) (by simp) hRestPath

theorem shown_of_card_lt {ins : Multiset Word} {w : Word} (hw : w ∈ ins)
    (hCard : ins.card < 65536) : Shown ins w := by
  intro path _ hPath hDvd
  have hPos : 0 < ins.countP (path <+: ·) := Multiset.countP_pos.mpr ⟨w, hw, hPath⟩
  have hLe := Multiset.countP_le_card (path <+: ·) ins
  have := Nat.le_of_dvd hPos hDvd
  omega

theorem Loaded.visible {w : Word} {node : Node} {ins : Multiset Word} (h : Loaded node ins)
    (hNode : node ≠ .null) : (∃ id, visible node w = some id) ↔ w ∈ ins ∧
    Shown ins w := by
  induction w generalizing node ins with
  | nil =>
    cases node with
    | null => exact absurd rfl hNode
    | node ref patternId child =>
      have hShown : Shown ins [] := fun path hNil hPath =>
        absurd (List.prefix_nil.mp hPath) hNil
      rw [and_iff_left hShown, ← h.1, RuleTrie.visible]
      split <;> simp [*]
  | cons k w ih =>
    cases node with
    | null => exact absurd rfl hNode
    | node ref patternId child =>
      obtain ⟨hRefs, hChild⟩ := h.2 k
      rw [RuleTrie.visible, shown_cons, ← refs_isNull hRefs, ← mem_below]
      by_cases hNull : isNull (child k) = true
      · simp [hNull]
      · rw [if_neg hNull, and_iff_right hNull]
        exact ih hChild fun heq => hNull (by rw [heq]; rfl)

end Shutter.RuleTrie
