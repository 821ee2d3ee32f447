import Shutter.RuleTrie.Match
import Mathlib.Data.List.TakeWhile

/-! The bytes that `c2i` has a child for.  The functions of the trie end on strings of these bytes.
A string with another byte undoes an insertion, and it undoes a deletion or a search as soon as a
rule leads there. -/

namespace Shutter.RuleTrie

/-- A digit, `*` or a space. -/
def InAlphabet (c : UInt8) : Prop := (48 ≤ c ∧ c ≤ 57) ∨ c = 42 ∨ c = 32

instance (c : UInt8) : Decidable (InAlphabet c) :=
  inferInstanceAs (Decidable ((48 ≤ c ∧ c ≤ 57) ∨ c = 42 ∨ c = 32))

/-- A string of such bytes. -/
def Spelled (s : List UInt8) : Prop := ∀ c ∈ s, InAlphabet c

instance (s : List UInt8) : Decidable (Spelled s) := List.decidableBAll InAlphabet s

theorem c2i_none {c : UInt8} (h : ¬InAlphabet c) : c2i c = none := by
  obtain ⟨hDigit, hStar, hSpace⟩ : ¬(48 ≤ c ∧ c ≤ 57) ∧ c ≠ 42 ∧ c ≠ 32 := by
    simpa only [InAlphabet, not_or] using h
  rw [c2i, dif_neg hDigit, if_neg hStar, if_neg hSpace]

theorem c2i_some {c : UInt8} (h : InAlphabet c) : ∃ i, c2i c = some i ∧ i2c i = c := by
  have hAll : ∀ n : Fin 256, InAlphabet (UInt8.ofFin n) →
      ∃ i, c2i (UInt8.ofFin n) = some i ∧ i2c i = UInt8.ofFin n := by
    decide +kernel
  exact hAll c.toFin h

theorem inAlphabet_i2c (i : Fin 12) : InAlphabet (i2c i) := by
  revert i
  decide

theorem spelled_cons {c : UInt8} {s : List UInt8} : Spelled (c :: s) ↔
    InAlphabet c ∧ Spelled s :=
  List.forall_mem_cons

theorem spelled_append {s s' : List UInt8} : Spelled (s ++ s') ↔ Spelled s ∧ Spelled s' :=
  List.forall_mem_append

theorem spelled_joinFields {subject action resource : List UInt8} :
    Spelled (joinFields subject action resource) ↔
      Spelled subject ∧ Spelled action ∧ Spelled resource := by
  have hSpace : Spelled [32] := by decide
  simp only [joinFields, spelled_append, hSpace, and_true, and_assoc]

theorem spelled_takeWhile (s : List UInt8) : Spelled (s.takeWhile InAlphabet) := by
  intro c hc
  simpa using List.mem_takeWhile_imp hc

theorem Spelled.exists_word {s : List UInt8} (h : Spelled s) : ∃ w : Word, s = w.map i2c := by
  induction s with
  | nil => exact ⟨[], rfl⟩
  | cons c s ih =>
    obtain ⟨hc, hs⟩ := spelled_cons.mp h
    obtain ⟨w, rfl⟩ := ih hs
    obtain ⟨i, -, rfl⟩ := c2i_some hc
    exact ⟨i :: w, rfl⟩

theorem spelled_word (w : Word) : Spelled (w.map i2c) := by
  intro c hc
  obtain ⟨i, -, rfl⟩ := List.mem_map.mp hc
  exact inAlphabet_i2c i

theorem exists_first {s : List UInt8} (h : ¬Spelled s) :
    ∃ (w : Word) (c : UInt8) (rest : List UInt8),
      s.takeWhile InAlphabet = w.map i2c ∧ s = w.map i2c ++ c :: rest ∧
      ¬InAlphabet c := by
  obtain ⟨w, hw⟩ := Spelled.exists_word (spelled_takeWhile s)
  cases hRest : s.dropWhile InAlphabet with
  | nil =>
    rw [List.dropWhile_eq_nil_iff] at hRest
    exact absurd (fun c hc => by simpa using hRest c hc) h
  | cons c rest =>
    refine ⟨w, c, rest, hw, ?_, ?_⟩
    · rw [← hw, ← hRest, List.takeWhile_append_dropWhile]
    · have hHead := List.head_dropWhile_not (p := fun c => decide (InAlphabet c)) (l := s)
        (by simp [hRest])
      simpa [hRest] using hHead

/-! ### Strings of these bytes -/

theorem node_ne_null {node : Node} (h : isNull node ≠ true) : node ≠ .null := by
  rintro rfl
  exact h rfl

theorem insertPath_of_word (id : Int) (w : Word) {node : Node} (hNode : node ≠ .null) :
    ∃ node', insertPath id node (w.map i2c) = some node' ∧ node' ≠ .null := by
  induction w generalizing node with
  | nil =>
    cases node with
    | null => exact absurd rfl hNode
    | node ref patternId child => exact ⟨.node ref id child, rfl, by simp⟩
  | cons k w ih =>
    cases node with
    | null => exact absurd rfl hNode
    | node ref patternId child =>
      obtain ⟨tmp, hTmp, -⟩ := ih (retain_ne_null (child k))
      refine ⟨.node ref patternId (Function.update child k tmp), ?_, by simp⟩
      simp [insertPath, hTmp]

/-- A reference less changes nothing that the first loop of `del` looks at. -/
theorem follow_unretain (node : Node) (s : List UInt8) (hs : s ≠ []) :
    follow (unretain node) s = follow node s := by
  obtain ⟨c, s, rfl⟩ := List.exists_cons_of_ne_nil hs
  cases node <;> rfl

theorem release_word {w : Word} {node found : Node}
    (h : follow node (w.map i2c) = some (some found)) (hNode : node ≠ .null) :
    ∃ node', release node (w.map i2c) = some node' ∧ node' ≠ .null := by
  induction w generalizing node found with
  | nil =>
    cases node with
    | null => exact absurd rfl hNode
    | node ref patternId child => exact ⟨.node ref (-1) child, rfl, by simp⟩
  | cons k w ih =>
    cases node with
    | null => exact absurd rfl hNode
    | node ref patternId child =>
      simp only [List.map_cons, follow, c2i_i2c, Option.bind_eq_bind, Option.bind_some] at h
      by_cases hNull : isNull (child k) = true
      · rw [if_pos hNull] at h
        cases h
      · rw [if_neg hNull] at h
        have hChild : unretain (child k) ≠ .null := by
          cases hk : child k with
          | null => exact absurd hk (node_ne_null hNull)
          | node ref patternId child => simp [unretain]
        have hFollow : ∃ found, follow (unretain (child k)) (w.map i2c) = some (some found) := by
          cases w with
          | nil => exact ⟨_, by rw [List.map_nil, follow]⟩
          | cons j w => exact ⟨found, by rw [follow_unretain _ _ (by simp), h]⟩
        obtain ⟨found, hFound⟩ := hFollow
        obtain ⟨tmp, hTmp, -⟩ := ih hFound hChild
        refine ⟨.node ref patternId (Function.update child k tmp), ?_, by simp⟩
        simp [release, hTmp]

theorem follow_of_word {w : Word} {node : Node} (hNode : node ≠ .null) :
    follow node (w.map i2c) = some none ∨
      ∃ found, follow node (w.map i2c) = some (some found) ∧ found ≠ .null := by
  induction w generalizing node with
  | nil => exact Or.inr ⟨node, by rw [List.map_nil, follow], hNode⟩
  | cons k w ih =>
    cases node with
    | null => exact absurd rfl hNode
    | node ref patternId child =>
      simp only [List.map_cons, follow, c2i_i2c, Option.bind_eq_bind, Option.bind_some]
      by_cases hNull : isNull (child k) = true
      · exact Or.inl (if_pos hNull)
      · rw [if_neg hNull]
        exact ih (node_ne_null hNull)

theorem del_word (w : Word) {t : Trie} (hRoot : t.trieTreeRoot ≠ .null) :
    ∃ t', del t (w.map i2c) = some t' ∧ t'.trieTreeRoot ≠ .null := by
  unfold del
  rcases follow_of_word (w := w) hRoot with hNone | ⟨found, hFound, hNull⟩
  · rw [hNone]
    exact ⟨t, rfl, hRoot⟩
  · rw [hFound]
    cases found with
    | null => exact absurd rfl hNull
    | node ref patternId child =>
      simp only [Option.bind_eq_bind, Option.bind_some]
      by_cases hId : patternId = -1
      · exact ⟨t, by rw [if_pos hId], hRoot⟩
      · obtain ⟨root, hRelease, hNull⟩ := release_word hFound hRoot
        exact ⟨{ t with trieTreeRoot := root }, by rw [if_neg hId, hRelease]; rfl, hNull⟩

/-! ### Other strings -/

theorem insertPath_not_spelled {s : List UInt8} (id : Int) (node : Node) (h : ¬Spelled s) :
    insertPath id node s = none := by
  induction s generalizing node with
  | nil => exact absurd (by simp [Spelled]) h
  | cons c s ih =>
    cases node with
    | null => rfl
    | node ref patternId child =>
      unfold insertPath
      by_cases hc : InAlphabet c
      · obtain ⟨i, hi, -⟩ := c2i_some hc
        have hs : ¬Spelled s := fun hs => h (spelled_cons.mpr ⟨hc, hs⟩)
        simp [hi, ih _ hs]
      · simp [c2i_none hc]

theorem insertPath_newNode (id : Int) (w : Word) :
    ∃ patternId child, insertPath id newNode (w.map i2c) = some (.node 1 patternId child) := by
  cases w with
  | nil => exact ⟨id, _, rfl⟩
  | cons k w =>
    obtain ⟨tmp, hTmp, -⟩ := insertPath_of_word id w (retain_ne_null .null)
    exact ⟨-1, Function.update (fun _ => .null) k tmp, by simp [newNode, insertPath, hTmp]⟩

theorem insertPath_cons (id : Int) (k : Fin 12) {w : Word} {tmp : Node}
    (h : insertPath id newNode (w.map i2c) = some tmp) :
    insertPath id newNode ((k :: w).map i2c) =
      some (.node 1 (-1) (Function.update (fun _ => .null) k tmp)) := by
  rw [List.map_cons]
  conv_lhs => rw [newNode, insertPath]
  simp [retain, h]

/-- The first loop of `del` follows a rule to the byte behind it. -/
theorem follow_not_spelled (id : Int) (w v : Word) {c : UInt8} (hc : ¬InAlphabet c)
    (rest : List UInt8) {root : Node}
    (hRoot : insertPath id newNode ((w ++ v).map i2c) = some root) :
    follow root (w.map i2c ++ c :: rest) = none := by
  induction w generalizing root with
  | nil =>
    obtain ⟨patternId, child, hNode⟩ := insertPath_newNode id v
    obtain rfl := Option.some.inj (hRoot.symm.trans hNode)
    simp [follow, c2i_none hc]
  | cons k w ih =>
    obtain ⟨patternId, child, hNode⟩ := insertPath_newNode id (w ++ v)
    have hIh := ih hNode
    have hInsert := insertPath_cons id k hNode
    obtain rfl := Option.some.inj (hRoot.symm.trans hInsert)
    simp only [List.map_cons, List.cons_append, follow, c2i_i2c, Option.bind_eq_bind,
      Option.bind_some, Function.update_self]
    rw [if_neg (by simp [isNull]), hIh]

theorem match_not_spelled (id : Int) (w v : Word) (hv : v ≠ []) {c : UInt8} (hc : ¬InAlphabet c)
    (rest : List UInt8) {root : Node} (hRoot : insertPath id newNode ((w ++ v).map i2c) = some root)
    (out : Bool × Int) : match_ root (w.map i2c ++ c :: rest) out = none := by
  -- the root has the child that the insertion went to
  have hChild : ∀ (k : Fin 12) (patternId : Int) (child : Fin 12 → Node),
      hasChild (Function.update (fun _ => .null) k (.node 1 patternId child)) = true := by
    intro k patternId child
    rw [hasChild, List.any_eq_true]
    exact ⟨k, List.mem_finRange k, by simp [isNull]⟩
  induction w generalizing root with
  | nil =>
    obtain ⟨k, v, rfl⟩ := List.exists_cons_of_ne_nil hv
    obtain ⟨patternId, child, hNode⟩ := insertPath_newNode id v
    have hInsert := insertPath_cons id k hNode
    obtain rfl := Option.some.inj (hRoot.symm.trans hInsert)
    simp [match_, hChild, c2i_none hc]
  | cons k w ih =>
    obtain ⟨patternId, child, hNode⟩ := insertPath_newNode id (w ++ v)
    have hIh := ih hNode
    have hInsert := insertPath_cons id k hNode
    obtain rfl := Option.some.inj (hRoot.symm.trans hInsert)
    simp only [List.map_cons, List.cons_append, match_, hChild, Bool.not_true, Bool.false_eq_true,
      if_false, c2i_i2c, Option.bind_eq_bind, Option.bind_some, Function.update_self]
    rw [if_neg (by simp [isNull]), hIh]
    rfl

end Shutter.RuleTrie
