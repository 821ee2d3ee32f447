import Shutter.RuleTrie.Model
import Mathlib.Data.Multiset.Filter
import Mathlib.Data.Multiset.AddSub

/-! What a trie stands for: the multiset of the words that insertions have left in it, which the
reference counts count, and the identifiers of the live words.  A deletion takes one insertion of a
live word back and leaves the word dead, so a word can be dead and still be counted. -/

namespace Shutter.RuleTrie

/-- A word of the trie: the path of a pattern. -/
abbrev Word := List (Fin 12)

/-- The rest of a word behind the child `k`. -/
def behind (k : Fin 12) : Word → Option Word
  | [] => none
  | a :: w => if a = k then some w else none

/-- The rests of the words of `ins` behind the child `k`. -/
def below (k : Fin 12) (ins : Multiset Word) : Multiset Word := ins.filterMap (behind k)

theorem below_card_le (k : Fin 12) (ins : Multiset Word) :
    (below k ins).card ≤ ins.card := by
  induction ins using Quotient.inductionOn with
  | _ l => simpa [below] using List.length_filterMap_le (behind k) l

@[simp] theorem below_cons_self (k : Fin 12) (w : Word) (ins : Multiset Word) :
    below k ((k :: w) ::ₘ ins) = w ::ₘ below k ins :=
  Multiset.filterMap_cons_some _ _ _ (by simp [behind])

theorem below_cons_of_ne {k j : Fin 12} (h : j ≠ k) (w : Word) (ins : Multiset Word) :
    below k ((j :: w) ::ₘ ins) = below k ins :=
  Multiset.filterMap_cons_none _ _ (by simp [behind, h])

@[simp] theorem below_cons_nil (k : Fin 12) (ins : Multiset Word) :
    below k ([] ::ₘ ins) = below k ins :=
  Multiset.filterMap_cons_none _ _ rfl

theorem mem_below {k : Fin 12} {w : Word} {ins : Multiset Word} :
    w ∈ below k ins ↔ k :: w ∈ ins := by
  unfold below
  rw [Multiset.mem_filterMap]
  constructor
  · rintro ⟨v, hv, hBehind⟩
    cases v with
    | nil => simp [behind] at hBehind
    | cons a v =>
      simp only [behind, Option.ite_none_right_eq_some, Option.some.injEq] at hBehind
      obtain ⟨rfl, rfl⟩ := hBehind
      exact hv
  · intro hw
    exact ⟨k :: w, hw, by simp [behind]⟩

theorem countP_below (k : Fin 12) (path : Word) (ins : Multiset Word) :
    (below k ins).countP (path <+: ·) = ins.countP (k :: path <+: ·) := by
  induction ins using Multiset.induction with
  | empty => rfl
  | cons w ins ih =>
    cases w with
    | nil => simp [ih]
    | cons j w =>
      by_cases hj : j = k
      · subst hj
        simp [Multiset.countP_cons, ih]
      · rw [below_cons_of_ne hj, ih, Multiset.countP_cons_of_neg]
        rintro ⟨v, hv⟩
        exact hj (List.cons.inj hv).1.symm

theorem card_below (k : Fin 12) (ins : Multiset Word) :
    (below k ins).card = ins.countP ([k] <+: ·) := by
  rw [← countP_below, Multiset.countP_eq_card.mpr fun w _ => List.nil_prefix]

/-- The reference count of a node is the number of insertions through it. -/
def Counts : Node → Nat → Prop
  | .null, n => n = 0
  | .node ref _ _, n => ref.toInt = n

theorem isNull_iff {node : Node} {n : Nat} (h : Counts node n) : isNull node = true ↔ n = 0 := by
  cases node with
  | null => simpa [isNull, Counts] using h
  | node ref patternId child =>
    simp only [Counts] at h
    simp only [isNull, beq_iff_eq, ← Int16.toInt_inj]
    rw [h]
    simp

/-- A node stands for the insertions below it and the identifiers of the live words below it, where
`C` relates the count of a node to the number of insertions through it. -/
def RepresentsBy (C : Node → Nat → Prop) : Node → Multiset Word →
    (Word → Option Int) → Prop
  | .null, ins, live => ins = 0 ∧ ∀ w, live w = none
  | .node _ patternId child, ins, live =>
    patternId = (live []).getD (-1) ∧
    ∀ k, C (child k) (below k ins).card ∧
      RepresentsBy C (child k) (below k ins) fun w => live (k :: w)

/-- A node stands for insertions that its counts count exactly. -/
abbrev Represents := RepresentsBy Counts

/-- Live words have been inserted, and -1 is no identifier. -/
structure Live (ins : Multiset Word) (live : Word → Option Int) : Prop where
  mem : ∀ w id, live w = some id → w ∈ ins
  id : ∀ w id, live w = some id → id ≠ -1

theorem Live.below {ins : Multiset Word} {live : Word → Option Int} (h : Live ins live)
    (k : Fin 12) : Live (below k ins) fun w => live (k :: w) where
  mem _ _ hw := mem_below.mpr (h.mem _ _ hw)
  id _ _ hw := h.id _ _ hw

theorem Live.insert {ins : Multiset Word} {live : Word → Option Int}
    (h : Live ins live) (w : Word) {id : Int} (hId : id ≠ -1) :
    Live (w ::ₘ ins) (Function.update live w (some id)) where
  mem v id' hv := by
    rw [Function.update_apply] at hv
    split at hv
    · rename_i hEq
      exact hEq ▸ Multiset.mem_cons_self _ _
    · exact Multiset.mem_cons_of_mem (h.mem v id' hv)
  id v id' hv := by
    rw [Function.update_apply] at hv
    split at hv
    · exact Option.some.inj hv ▸ hId
    · exact h.id v id' hv

theorem Live.del {ins : Multiset Word} {live : Word → Option Int} {w : Word}
    (h : Live (w ::ₘ ins) live) : Live ins (Function.update live w none) where
  mem v id' hv := by
    rw [Function.update_apply] at hv
    split at hv
    · simp at hv
    · rename_i hNe
      exact (Multiset.mem_cons.mp (h.mem v id' hv)).resolve_left hNe
  id v id' hv := by
    rw [Function.update_apply] at hv
    split at hv
    · simp at hv
    · exact h.id v id' hv

/-- What a relation between counts and insertions must allow: a step to a child that is new or one
that is left, and a count of 0 only where there are no insertions. -/
structure Counting (C : Node → Nat → Prop) : Prop where
  null : C .null 0
  top : ∀ {ref patternId patternId' child child' n},
    C (.node ref patternId child) n → C (.node ref patternId' child') n
  retain_null : C (retain .null) 1
  unretain : ∀ {node n}, C node (n + 1) → unretain node ≠ .null ∧ C (unretain node) n
  hidden : ∀ {node n}, C node n → isNull node = true → n = 0

variable {C : Node → Nat → Prop}

theorem Counting.newNode (hC : Counting C) : RepresentsBy C newNode 0 fun _ => none :=
  ⟨rfl, fun _ => ⟨hC.null, rfl, fun _ => rfl⟩⟩

/-- A child is replaced: the other children stand for what they stood for. -/
theorem RepresentsBy.update {ref ref' : Int16} {patternId : Int} {child : Fin 12 → Node}
    {ins ins' : Multiset Word} {live live' : Word → Option Int}
    (h : RepresentsBy C (.node ref patternId child) ins live) {k : Fin 12} {tmp : Node}
    (hNil : live' [] = live [])
    (hTmp : C tmp (below k ins').card ∧ RepresentsBy C tmp (below k ins') fun w => live' (k :: w))
    (hOther : ∀ j, j ≠ k → below j ins' = below j ins ∧ ∀ w,
    live' (j :: w) = live (j :: w)) :
    RepresentsBy C (.node ref' patternId (Function.update child k tmp)) ins' live' := by
  refine ⟨hNil ▸ h.1, fun j => ?_⟩
  by_cases hj : j = k
  · subst hj
    rw [Function.update_self]
    exact hTmp
  · obtain ⟨hIns, hLive⟩ := hOther j hj
    rw [Function.update_of_ne hj, hIns, funext hLive]
    exact h.2 j

/-! ### Insertion -/

theorem retain_ne_null (node : Node) : retain node ≠ .null := by
  cases node <;> simp [retain, newNode]

/-- The counts on the path of the word have room for one more insertion. -/
def Passes (C : Node → Nat → Prop) : Node → Word → Prop
  | .node _ _ child, k :: w =>
    (∀ n, C (child k) n → C (retain (child k)) (n + 1)) ∧ Passes C (child k) w
  | _, _ => True

theorem Counting.passes_retain (hC : Counting C) {node : Node} {w : Word} (h : Passes C node w) :
    Passes C (retain node) w := by
  cases node with
  | node ref patternId child => cases w <;> exact h
  | null =>
    cases w with
    | nil => trivial
    | cons k w =>
      refine ⟨fun n hn => ?_, trivial⟩
      obtain rfl := hC.hidden hn rfl
      exact hC.retain_null

theorem Counting.retain (hC : Counting C) {node : Node} {ins : Multiset Word}
    {live : Word → Option Int} (h : RepresentsBy C node ins live) :
    RepresentsBy C (retain node) ins live := by
  cases node with
  | null =>
    obtain ⟨rfl, hLive⟩ := h
    rw [funext hLive]
    exact hC.newNode
  | node ref patternId child => exact h

/-- An insertion adds its word, and makes it live with its identifier, when the counts on its path
have room for it. -/
theorem RepresentsBy.insertPath (hC : Counting C) (w : Word) (id : Int) {node : Node}
    {ins : Multiset Word} {live : Word → Option Int} (h : RepresentsBy C node ins live)
    (hNode : node ≠ .null) (hPasses : Passes C node w) :
    ∃ node', insertPath id node (w.map i2c) = some node' ∧ node' ≠ .null ∧
      (∀ n, C node n → C node' n) ∧
      RepresentsBy C node' (w ::ₘ ins) (Function.update live w (some id)) := by
  induction w generalizing node ins live with
  | nil =>
    cases node with
    | null => exact absurd rfl hNode
    | node ref patternId child =>
      refine ⟨_, rfl, by simp, fun _ hn => hC.top hn, by simp, fun k => ?_⟩
      simpa [below_cons_nil, Function.update] using h.2 k
  | cons k w ih =>
    cases node with
    | null => exact absurd rfl hNode
    | node ref patternId child =>
      obtain ⟨hCounts, hChild⟩ := h.2 k
      obtain ⟨tmp, hRun, -, hKeep, hTmp⟩ :=
        ih (hC.retain hChild) (retain_ne_null _) (hC.passes_retain hPasses.2)
      refine ⟨.node ref patternId (Function.update child k tmp), ?_, by simp,
        fun _ hn => hC.top hn, h.update ?_ ?_ fun j hj => ?_⟩
      · simp only [List.map_cons, RuleTrie.insertPath, c2i_i2c, Option.bind_eq_bind,
          Option.bind_some, hRun]
      · simp
      · rw [below_cons_self, Multiset.card_cons]
        refine ⟨hKeep _ (hPasses.1 _ hCounts), ?_⟩
        convert hTmp using 2 with v
        simp [Function.update_apply]
      · exact ⟨below_cons_of_ne (Ne.symm hj) w ins, fun v => by simp [hj]⟩

/-! ### Deletion -/

theorem unretain_representsBy {node : Node} {ins : Multiset Word} {live : Word → Option Int}
    (h : RepresentsBy C node ins live) : RepresentsBy C (unretain node) ins live := by
  cases node with
  | null => exact h
  | node ref patternId child => exact h

/-- A deletion takes one insertion of its word back, and leaves the word dead. -/
theorem RepresentsBy.release (hC : Counting C) (w : Word) {node : Node} {ins : Multiset Word}
    {live : Word → Option Int} (h : RepresentsBy C node (w ::ₘ ins) live)
    (hNode : node ≠ .null) :
    ∃ node', release node (w.map i2c) = some node' ∧ node' ≠ .null ∧
      (∀ n, C node n → C node' n) ∧ RepresentsBy C node' ins
      (Function.update live w none) := by
  induction w generalizing node ins live with
  | nil =>
    cases node with
    | null => exact absurd rfl hNode
    | node ref patternId child =>
      refine ⟨_, rfl, by simp, fun _ hn => hC.top hn, by simp, fun k => ?_⟩
      simpa [below_cons_nil, Function.update] using h.2 k
  | cons k w ih =>
    cases node with
    | null => exact absurd rfl hNode
    | node ref patternId child =>
      obtain ⟨hCounts, hChild⟩ := h.2 k
      rw [below_cons_self, Multiset.card_cons] at hCounts
      rw [below_cons_self] at hChild
      obtain ⟨hNull, hCounts⟩ := hC.unretain hCounts
      obtain ⟨tmp, hRun, -, hKeep, hTmp⟩ := ih (unretain_representsBy hChild) hNull
      refine ⟨.node ref patternId (Function.update child k tmp), ?_, by simp,
        fun _ hn => hC.top hn, h.update ?_ ?_ fun j hj => ?_⟩
      · simp only [List.map_cons, RuleTrie.release, c2i_i2c, Option.bind_eq_bind,
          Option.bind_some, hRun]
      · simp
      · refine ⟨hKeep _ hCounts, ?_⟩
        convert hTmp using 2 with v
        simp [Function.update_apply]
      · exact ⟨(below_cons_of_ne (Ne.symm hj) w ins).symm,
          fun v => by simp [hj]⟩

/-- The first loop of `del` reaches a node with an identifier exactly when the word is live. -/
theorem RepresentsBy.follow (hC : Counting C) (w : Word) {node : Node} {ins : Multiset Word}
    {live : Word → Option Int} (h : RepresentsBy C node ins live) (hLive : Live ins live)
    (hNode : node ≠ .null) :
    (follow node (w.map i2c) = some none ∧ live w = none) ∨
    ∃ ref patternId child, follow node (w.map i2c) = some (some (.node ref patternId child)) ∧
      patternId = (live w).getD (-1) := by
  induction w generalizing node ins live with
  | nil =>
    cases node with
    | null => exact absurd rfl hNode
    | node ref patternId child => exact Or.inr ⟨ref, patternId, child, rfl, h.1⟩
  | cons k w ih =>
    cases node with
    | null => exact absurd rfl hNode
    | node ref patternId child =>
      obtain ⟨hCounts, hChild⟩ := h.2 k
      simp only [List.map_cons, RuleTrie.follow, c2i_i2c, Option.bind_eq_bind, Option.bind_some]
      by_cases hNull : isNull (child k) = true
      · refine Or.inl ⟨if_pos hNull, ?_⟩
        have hEmpty := Multiset.card_eq_zero.mp (hC.hidden hCounts hNull)
        cases hw : live (k :: w) with
        | none => rfl
        | some id =>
          have := (hLive.below k).mem w id hw
          simp [hEmpty] at this
      · rw [if_neg hNull]
        exact ih hChild (hLive.below k) fun heq => hNull (by rw [heq]; rfl)

/-! ### Exact counts -/

theorem retain_counts {node : Node} {n : Nat} (h : Counts node n) (hLt : n < 32767) :
    Counts (retain node) (n + 1) := by
  cases node with
  | null =>
    obtain rfl : n = 0 := h
    rfl
  | node ref patternId child =>
    simp only [Counts] at h
    simp only [retain, Counts]
    rw [Int16.toInt_add, h, Int.bmod_eq_of_le]
    all_goals simp; try omega

theorem unretain_counts {node : Node} {n : Nat} (h : Counts node (n + 1)) :
    unretain node ≠ .null ∧ Counts (unretain node) n := by
  cases node with
  | null => simp [Counts] at h
  | node ref patternId child =>
    simp only [Counts] at h
    have hLe : (1 : Int16) ≤ ref := by
      rw [Int16.le_iff_toInt_le, h, Int16.toInt_one]
      omega
    have hLt := Int16.toInt_lt ref
    simp only [unretain, Counts, if_pos hLe]
    refine ⟨by simp, ?_⟩
    rw [Int16.toInt_sub, h, Int.bmod_eq_of_le]
    all_goals simp; try omega

theorem Counts.unique {node : Node} {n m : Nat} (h : Counts node n) (h' : Counts node m) :
    n = m := by
  cases node with
  | null => exact Eq.trans h (Eq.symm h')
  | node ref patternId child => exact_mod_cast (Eq.symm h).trans h'

theorem Represents.passes {w : Word} {node : Node} {ins : Multiset Word}
    {live : Word → Option Int} (h : Represents node ins live)
    (hRoom : ∀ k, w.head? = some k → (below k ins).card < 32767) : Passes Counts node w := by
  induction w generalizing node ins live with
  | nil => cases node <;> trivial
  | cons k w ih =>
    cases node with
    | null => trivial
    | node ref patternId child =>
      obtain ⟨hCounts, hChild⟩ := h.2 k
      have hLt : (below k ins).card < 32767 := hRoom k rfl
      refine ⟨fun n hn => retain_counts hn (hn.unique hCounts ▸ hLt), ih hChild fun j _ => ?_⟩
      exact (below_card_le j (below k ins)).trans_lt hLt

theorem counts_counting : Counting Counts where
  null := rfl
  top h := h
  retain_null := rfl
  unretain h := unretain_counts h
  hidden h hNull := (isNull_iff h).mp hNull

theorem newNode_represents : Represents newNode 0 fun _ => none := counts_counting.newNode

theorem Represents.insertPath_of_room (w : Word) (id : Int) {node : Node} {ins : Multiset Word}
    {live : Word → Option Int} (h : Represents node ins live) (hNode : node ≠ .null)
    (hRoom : ∀ k, w.head? = some k → (below k ins).card < 32767) :
    ∃ node', insertPath id node (w.map i2c) = some node' ∧ node' ≠ .null ∧
      (∀ n, Counts node n → Counts node' n) ∧
      Represents node' (w ::ₘ ins) (Function.update live w (some id)) :=
  RepresentsBy.insertPath counts_counting w id h hNode (h.passes hRoom)

theorem Represents.insertPath (w : Word) (id : Int) {node : Node} {ins : Multiset Word}
    {live : Word → Option Int} (h : Represents node ins live) (hNode : node ≠ .null)
    (hCard : ins.card < 32767) :
    ∃ node', insertPath id node (w.map i2c) = some node' ∧ node' ≠ .null ∧
      (∀ n, Counts node n → Counts node' n) ∧
      Represents node' (w ::ₘ ins) (Function.update live w (some id)) :=
  h.insertPath_of_room w id hNode fun k _ => (below_card_le k ins).trans_lt hCard

theorem Represents.release (w : Word) {node : Node} {ins : Multiset Word}
    {live : Word → Option Int} (h : Represents node (w ::ₘ ins) live) (hNode : node ≠ .null) :
    ∃ node', release node (w.map i2c) = some node' ∧ node' ≠ .null ∧
      (∀ n, Counts node n → Counts node' n) ∧
      Represents node' ins (Function.update live w none) :=
  RepresentsBy.release counts_counting w h hNode

theorem Represents.follow (w : Word) {node : Node} {ins : Multiset Word}
    {live : Word → Option Int} (h : Represents node ins live) (hLive : Live ins live)
    (hNode : node ≠ .null) :
    (follow node (w.map i2c) = some none ∧ live w = none) ∨
    ∃ ref patternId child, follow node (w.map i2c) = some (some (.node ref patternId child)) ∧
      patternId = (live w).getD (-1) :=
  RepresentsBy.follow counts_counting w h hLive hNode

end Shutter.RuleTrie
