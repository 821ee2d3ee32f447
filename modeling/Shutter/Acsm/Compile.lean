import Shutter.Acsm.Trie
import Shutter.Library.Run
import Mathlib.Data.List.Perm.Subperm

/-! The second phase of the compiler: `Build_DFA` completes the trie to an automaton.  The queue
gives the states out in the order of their depths, so the failure of a state on the queue is a
state that is complete already.  The state after a text stands for the longest suffix of the text
that begins a pattern, and lists the patterns that end there. -/

namespace Shutter.Acsm

open Shutter.Library
open scoped List

variable {ps : List Pattern} {word : Nat → Pattern} {trie : Build}

/-! ### The trie from below -/

theorem Trie.word_ne_nil (h : Trie ps word trie) {s : Nat} (hs : s ≤ trie.numStates)
    (hPos : s ≠ 0) : word s ≠ [] := fun hNil =>
  hPos (h.shape.injective s hs 0 (Nat.zero_le _) (hNil.trans h.shape.root.symm))

/-- A transition of the trie is there for each prefix that extends the word of the state. -/
theorem Trie.next_of_mem (h : Trie ps word trie) {s t : Nat} {c : UInt8} (hs : s ≤ trie.numStates)
    (ht : t ≤ trie.numStates) (hWord : word t = word s ++ [c]) : trie.nextState s c = some t := by
  cases hNext : trie.nextState s c with
  | none => exact absurd (hWord ▸ h.shape.word_mem ht) (h.shape.leaf s hs c hNext)
  | some u =>
    obtain ⟨hu, hw⟩ := h.shape.child s hs c u hNext
    rw [h.shape.injective u hu t ht (hw.trans hWord.symm)]

theorem Trie.parent (h : Trie ps word trie) {s : Nat} (hs : s ≤ trie.numStates) (hPos : s ≠ 0) :
    ∃ r ≤ trie.numStates, ∃ c, trie.nextState r c = some s ∧ word s = word r ++ [c] := by
  obtain hNil | ⟨w, c, hw⟩ := List.eq_nil_or_concat (word s)
  · exact absurd hNil (h.word_ne_nil hs hPos)
  · rw [List.concat_eq_append] at hw
    obtain ⟨r, hr, rfl⟩ := (h.shape.mem w).mp (h.shape.closed w c (hw ▸ h.shape.word_mem hs))
    exact ⟨r, hr, c, h.next_of_mem hr hs hw, hw⟩

/-- Two parts of a list by disjoint conditions make up the part by either condition. -/
theorem filter_append_filter_perm {α : Type*} {P Q R : α → Prop} [DecidablePred P]
    [DecidablePred Q] [DecidablePred R] (l : List α) (hOr : ∀ a ∈ l, P a ↔ Q a ∨ R a)
    (hNot : ∀ a, Q a → ¬R a) : l.filter (Q ·) ++ l.filter (R ·) ~ l.filter (P ·) := by
  induction l with
  | nil => rfl
  | cons a l ih =>
    have hPerm := ih fun b hb => hOr b (List.mem_cons_of_mem _ hb)
    have hHead := hOr a List.mem_cons_self
    by_cases hQ : Q a
    · simpa [hHead.mpr (Or.inl hQ), hQ, hNot a hQ] using hPerm.cons a
    · by_cases hR : R a
      · simpa [hHead.mpr (Or.inr hR), hQ, hR] using List.perm_middle.trans (hPerm.cons a)
      · simpa [mt hHead.mp (not_or.mpr ⟨hQ, hR⟩), hQ, hR] using hPerm

/-- The patterns of a list that have bytes.  The empty pattern joins the list of the root, from
where only some states copy it. -/
def filled (ps : List Pattern) : List Pattern := ps.filter (· ≠ [])

theorem mem_filled {p : Pattern} : p ∈ filled ps ↔ p ∈ ps ∧ p ≠ [] := by simp [filled]

theorem filled_eq (h : ∀ p ∈ ps, p ≠ []) : filled ps = ps :=
  List.filter_eq_self.mpr fun p hp => by simpa using h p hp

/-- The patterns that a compiled state lists: those of `ps` that end its word, and perhaps the
empty one. -/
def Lists (ps mlist : List Pattern) (w : Pattern) : Prop :=
  filled mlist ~ (filled ps).filter (· <:+ w) ∧ ∀ p ∈ mlist, p ∈ ps

theorem Lists.own {w : Pattern} :
    filled (ps.filter (· = w)).reverse ~ (filled ps).filter (· = w) := by
  have hComm : filled (ps.filter (· = w)) = (filled ps).filter (· = w) := by
    rw [filled, filled, List.filter_filter, List.filter_filter]
    exact List.filter_congr fun p _ => Bool.and_comm _ _
  rw [← hComm]
  exact (List.reverse_perm _).filter _

/-- The patterns that end at a state are its own and those that end at its failure. -/
theorem endings_perm {w : Pattern} (hNonempty : w ≠ []) :
    (filled ps).filter (· = w) ++ (filled ps).filter (· <:+ longestPrefix ps w.tail) ~
      (filled ps).filter (· <:+ w) := by
  obtain ⟨a, w, rfl⟩ := List.exists_cons_of_ne_nil hNonempty
  refine filter_append_filter_perm (filled ps) (fun p hp => ?_) fun p hp hSuffix => ?_
  · rw [List.suffix_cons_iff]
    exact or_congr_right
      (suffix_longestSuffix_iff (PrefixOfSome.of_mem (mem_filled.mp hp).1)).symm
  · have := (hSuffix.trans (longestSuffix_suffix _ w)).length_le
    rw [hp, List.length_cons] at this
    omega

/-- A state with this word lists the empty pattern: the last byte of the word begins no pattern. -/
def Blank (ps : List Pattern) (w : Pattern) : Prop :=
  [] ∈ ps ∧ ∀ v c, w = v ++ [c] → ¬PrefixOfSome ps [c]

theorem blank_concat {v : Pattern} {c : UInt8} :
    Blank ps (v ++ [c]) ↔ [] ∈ ps ∧ ¬PrefixOfSome ps [c] := by
  refine and_congr_right fun _ => ⟨fun h => h v c rfl, fun h v' c' heq => ?_⟩
  obtain ⟨-, hc⟩ := List.append_inj' heq rfl
  obtain rfl := List.cons.inj hc |>.1
  exact h

theorem blank_nil : Blank ps [] ↔ [] ∈ ps := by
  refine and_iff_left fun v c heq => ?_
  simp at heq

theorem blank_longestPrefix {t : List UInt8} : Blank ps (longestPrefix ps t) ↔ Blank ps t := by
  obtain rfl | ⟨v, c, rfl⟩ := List.eq_nil_or_concat t
  · rfl
  rw [List.concat_eq_append, blank_concat]
  have hSuffix : longestPrefix ps (v ++ [c]) <:+ v ++ [c] := longestSuffix_suffix _ _
  rcases List.suffix_concat_iff.mp hSuffix with hNil | ⟨u, hLast, -⟩
  · rw [hNil, blank_nil]
    refine (and_iff_left fun hc => ?_).symm
    have hLong : [c] <:+ longestPrefix ps (v ++ [c]) :=
      suffix_longestSuffix hc (List.suffix_append v [c])
    rw [hNil] at hLong
    simpa using hLong.length_le
  · rw [hLast, blank_concat]

/-- The states that have been on the queue list the empty pattern where they should. -/
def ListsBlank (ps : List Pattern) (word : Nat → Pattern) (seen : List Nat) (b : Build) : Prop :=
  ∀ s, s = 0 ∨ s ∈ seen → ([] ∈ b.matchList s ↔ Blank ps (word s))

theorem ListsBlank.push {seen : List Nat} {b b' : Build} (h : ListsBlank ps word seen b) {t : Nat}
    (hSame : ∀ s, s = 0 ∨ s ∈ seen → b'.matchList s = b.matchList s)
    (hNew : [] ∈ b'.matchList t ↔ Blank ps (word t)) : ListsBlank ps word (seen ++ [t]) b' := by
  have hOld : ∀ s, s = 0 ∨ s ∈ seen → ([] ∈ b'.matchList s ↔ Blank ps (word s)) := by
    intro s hs
    rw [hSame s hs]
    exact h s hs
  rintro s (h0 | hs)
  · exact hOld s (Or.inl h0)
  · rcases List.mem_append.mp hs with hs | hs
    · exact hOld s (Or.inr hs)
    · rw [List.mem_singleton.mp hs]
      exact hNew

theorem nodup_split {α : Type*} {l done rest : List α} {a : α} (hSplit : l = done ++ a :: rest)
    (hNodup : l.Nodup) : a ∉ done := fun ha =>
  (List.nodup_append.mp (hSplit ▸ hNodup)).2.2 a ha a List.mem_cons_self rfl

/-! ### The invariant of the breadth-first search -/

/-- State `s` has its final transition for `c`: to the longest suffix of its word and `c`. -/
def Goes (ps : List Pattern) (word : Nat → Pattern) (b : Build) (s : Nat) (c : UInt8) : Prop :=
  ∃ t ≤ b.numStates, b.nextState s c = some t ∧ word t = longestPrefix ps (word s ++ [c])

/-- The table while `Build_DFA` runs.  `Expanded s c` holds when the transition of `s` for `c` has
been visited, and `seen` are the states that have been on the queue, in order. -/
structure Building (ps : List Pattern) (word : Nat → Pattern) (trie : Build)
    (Expanded : Nat → UInt8 → Prop) (seen : List Nat) (b : Build) : Prop where
  numStates : b.numStates = trie.numStates
  dept : b.dept = trie.dept
  goes : ∀ s ≤ trie.numStates, ∀ c, s = 0 ∨ Expanded s c → Goes ps word b s c
  todo : ∀ s ≤ trie.numStates, ∀ c, s ≠ 0 → ¬Expanded s c →
    b.nextState s c = trie.nextState s c
  seen_iff : ∀ s ≤ trie.numStates, ∀ c t, trie.nextState s c = some t →
    (t ∈ seen ↔ Expanded s c)
  fail : ∀ s ∈ seen, b.failState s ≤ trie.numStates ∧
    word (b.failState s) = longestPrefix ps (word s).tail
  out : ∀ s, s = 0 ∨ s ∈ seen → Lists ps (b.matchList s) (word s)
  out_todo : ∀ s, s ≠ 0 → s ∉ seen → b.matchList s = trie.matchList s
  range : ∀ s ∈ seen, s ≠ 0 ∧ s ≤ trie.numStates
  nodup : seen.Nodup
  sorted : seen.Pairwise fun s t => (word s).length ≤ (word t).length

section Steps

variable {Expanded : Nat → UInt8 → Prop} {seen : List Nat} {b : Build}

theorem Building.congr {Expanded' : Nat → UInt8 → Prop}
    (h : Building ps word trie Expanded seen b)
    (hIff : ∀ s ≤ trie.numStates, ∀ c, Expanded' s c ↔ Expanded s c) :
    Building ps word trie Expanded' seen b :=
  { h with
    goes := fun s hs c hc => h.goes s hs c (hc.imp_right (hIff s hs c).mp)
    todo := fun s hs c h0 hc => h.todo s hs c h0 (mt (hIff s hs c).mpr hc)
    seen_iff := fun s hs c t ht => (h.seen_iff s hs c t ht).trans (hIff s hs c).symm }

/-- A visited transition that the trie lacks: only the row of `r` changes. -/
theorem Building.expand (h : Building ps word trie Expanded seen b)
    {r : Nat} {i : UInt8} (hNone : trie.nextState r i = none) {b' : Build}
    (hGoes : Goes ps word b' r i)
    (hSame : ∀ s c, ¬(s = r ∧ c = i) → b'.nextState s c = b.nextState s c)
    (hRest : b'.failState = b.failState ∧ b'.matchList = b.matchList ∧
      b'.numStates = b.numStates ∧ b'.dept = b.dept) :
    Building ps word trie (fun s c => Expanded s c ∨ s = r ∧ c = i) seen b' := by
  obtain ⟨hFail, hOut, hNum, hDept⟩ := hRest
  refine { numStates := hNum.trans h.numStates, dept := hDept.trans h.dept, goes := ?_, todo := ?_,
           seen_iff := ?_, fail := hFail ▸ h.fail, out := hOut ▸ h.out,
           out_todo := hOut ▸ h.out_todo, range := h.range, nodup := h.nodup,
           sorted := h.sorted }
  · intro s hs c hc
    by_cases hri : s = r ∧ c = i
    · obtain ⟨rfl, rfl⟩ := hri
      exact hGoes
    · obtain ⟨t, ht, hNext, hw⟩ := h.goes s hs c (by tauto)
      exact ⟨t, hNum ▸ ht, (hSame s c hri).trans hNext, hw⟩
  · intro s hs c h0 hc
    obtain ⟨hc, hri⟩ := not_or.mp hc
    rw [hSame s c hri, h.todo s hs c h0 hc]
  · intro s hs c t ht
    rw [h.seen_iff s hs c t ht]
    refine ⟨Or.inl, fun hc => hc.resolve_right ?_⟩
    rintro ⟨rfl, rfl⟩
    simp [hNone] at ht

/-- A visited transition of the trie: its target `t` joins the queue with its failure and its
matches. -/
theorem Building.push (hTrie : Trie ps word trie) (h : Building ps word trie Expanded seen b)
    {r t f : Nat} {i : UInt8} {out : List Pattern} (hr : r ≤ trie.numStates)
    (hNext : trie.nextState r i = some t) (hNew : ¬Expanded r i) (hGoes : Goes ps word b r i)
    (hLast : ∀ s ∈ seen, (word s).length ≤ (word t).length)
    (hf : f ≤ trie.numStates ∧ word f = longestPrefix ps (word t).tail)
    (hOut : Lists ps out (word t)) {b' : Build}
    (hFail : ∀ s, b'.failState s = if s = t then f else b.failState s)
    (hMatch : ∀ s, b'.matchList s = if s = t then out else b.matchList s)
    (hRest : b'.nextState = b.nextState ∧ b'.numStates = b.numStates ∧ b'.dept = b.dept) :
    Building ps word trie (fun s c => Expanded s c ∨ s = r ∧ c = i) (seen ++ [t]) b' := by
  obtain ⟨hRow, hNum, hDept⟩ := hRest
  obtain ⟨ht, hWord⟩ := hTrie.shape.child r hr i t hNext
  have hNotSeen : t ∉ seen := fun hSeen => hNew ((h.seen_iff r hr i t hNext).mp hSeen)
  have ht0 : t ≠ 0 := by
    rintro rfl
    simp [hTrie.shape.root] at hWord
  refine { numStates := hNum.trans h.numStates, dept := hDept.trans h.dept, goes := ?_, todo := ?_,
           seen_iff := ?_, fail := ?_, out := ?_, out_todo := ?_, range := ?_, nodup := ?_,
           sorted := ?_ }
  · intro s hs c hc
    unfold Goes
    rw [hRow, hNum]
    by_cases hri : s = r ∧ c = i
    · obtain ⟨rfl, rfl⟩ := hri
      exact hGoes
    · exact h.goes s hs c (by tauto)
  · intro s hs c h0 hc
    rw [hRow, h.todo s hs c h0 (mt Or.inl hc)]
  · intro s hs c u hu
    rw [List.mem_append, List.mem_singleton, h.seen_iff s hs c u hu]
    refine or_congr_right ⟨?_, ?_⟩
    · rintro rfl
      have hw := (hTrie.shape.child s hs c u hu).2
      obtain ⟨hsr, hci⟩ := by simpa using hw.symm.trans hWord
      exact ⟨hTrie.shape.injective s hs r hr hsr, hci⟩
    · rintro ⟨rfl, rfl⟩
      exact Option.some.inj (hu.symm.trans hNext)
  · intro s hs
    rw [hFail s]
    split
    · rename_i hst
      exact hst ▸ hf
    · rename_i hst
      exact h.fail s ((List.mem_append.mp hs).resolve_right (by simpa using hst))
  · intro s hs
    rw [hMatch s]
    split
    · rename_i hst
      exact hst ▸ hOut
    · rename_i hst
      exact h.out s (hs.imp_right fun hs =>
        (List.mem_append.mp hs).resolve_right (by simpa using hst))
  · intro s h0 hs
    rw [List.mem_append, List.mem_singleton, not_or] at hs
    rw [hMatch s, if_neg hs.2, h.out_todo s h0 hs.1]
  · intro s hs
    rcases List.mem_append.mp hs with hs | hs
    · exact h.range s hs
    · obtain rfl := List.mem_singleton.mp hs
      exact ⟨ht0, ht⟩
  · exact List.nodup_append.mpr ⟨h.nodup, List.nodup_singleton t, fun s hs u hu => by
      obtain rfl := List.mem_singleton.mp hu
      exact fun heq => hNotSeen (heq ▸ hs)⟩
  · exact List.pairwise_append.mpr ⟨h.sorted, List.pairwise_singleton _ _, fun s hs u hu => by
      obtain rfl := List.mem_singleton.mp hu
      exact hLast s hs⟩

end Steps

/-! ### State 0 -/

theorem fillRoot_building (hTrie : Trie ps word trie) :
    Building ps word trie (fun _ _ => False) [] trie.fillRoot where
  numStates := rfl
  dept := rfl
  goes s hs c hc := by
    obtain rfl := hc.resolve_right id
    cases hNext : trie.nextState 0 c with
    | none =>
      refine ⟨0, Nat.zero_le _, by simp [Build.fillRoot, hNext], ?_⟩
      have hNot := hTrie.shape.leaf 0 hs c hNext
      rw [hTrie.shape.root, List.nil_append] at hNot ⊢
      simp [longestPrefix, longestSuffix, hNot]
    | some t =>
      obtain ⟨ht, hw⟩ := hTrie.shape.child 0 hs c t hNext
      refine ⟨t, ht, by simp [Build.fillRoot, hNext], ?_⟩
      rw [← hw, longestPrefix, longestSuffix_of_mem (hTrie.shape.word_mem ht)]
  todo s hs c h0 _ := by simp [Build.fillRoot, h0]
  seen_iff s hs c t ht := by simp
  fail s hs := by simp at hs
  out s hs := by
    obtain rfl := hs.resolve_right (by simp)
    have hOut := hTrie.out 0 (Nat.zero_le _)
    rw [hTrie.shape.root] at hOut ⊢
    have hNone : (filled ps).filter (· <:+ []) = [] :=
      List.filter_eq_nil_iff.mpr fun p hp => by simpa using (mem_filled.mp hp).2
    refine ⟨List.Perm.of_eq ?_, fun p hp => ?_⟩
    · rw [hNone, filled, List.filter_eq_nil_iff]
      intro p hp
      have hp : p ∈ (ps.filter (· = [])).reverse := hOut ▸ hp
      simpa using (List.mem_filter.mp (List.mem_reverse.mp hp)).2
    · have hp : p ∈ (ps.filter (· = [])).reverse := hOut ▸ hp
      exact (List.mem_filter.mp (List.mem_reverse.mp hp)).1
  out_todo s h0 _ := rfl
  range s hs := by simp at hs
  nodup := List.nodup_nil
  sorted := List.Pairwise.nil

theorem fillRoot_blank (hTrie : Trie ps word trie) : ListsBlank ps word [] trie.fillRoot := by
  intro s hs
  obtain rfl := hs.resolve_right (by simp)
  have hOut : trie.fillRoot.matchList 0 = (ps.filter (· = word 0)).reverse :=
    hTrie.out 0 (Nat.zero_le _)
  rw [hOut, hTrie.shape.root, blank_nil]
  simp

/-- One round of the first loop of `Build_DFA`. -/
theorem Building.queueRoot (hTrie : Trie ps word trie) {done : List UInt8} {seen : List Nat}
    {b : Build} (h : Building ps word trie (fun s c => s = 0 ∧ c ∈ done) seen b)
    (hBlank : ListsBlank ps word seen b) {i : UInt8} (hNew : i ∉ done) :
    ∃ res, Build.queueRoot (b, seen) i = some res ∧
      Building ps word trie (fun s c => s = 0 ∧ c ∈ done ++ [i]) res.2 res.1 ∧
      ListsBlank ps word res.2 res.1 := by
  obtain ⟨t, ht, hNext, hw⟩ := h.goes 0 (Nat.zero_le _) i (Or.inl rfl)
  rw [hTrie.shape.root, List.nil_append] at hw
  have hExpanded : ∀ s ≤ trie.numStates, ∀ c, (s = 0 ∧ c ∈ done ++ [i]) ↔
      (s = 0 ∧ c ∈ done) ∨ s = 0 ∧ c = i := fun s _ c => by simp [and_or_left]
  simp only [Build.queueRoot, hNext, Option.bind_eq_bind, Option.bind_some]
  split
  · rename_i h0
    subst h0
    refine ⟨_, rfl, Building.congr (h.expand ?_ ⟨0, ht, hNext, ?_⟩ (fun _ _ _ => rfl)
      ⟨rfl, rfl, rfl, rfl⟩) hExpanded, hBlank⟩
    · cases hChild : trie.nextState 0 i with
      | none => rfl
      | some u =>
        obtain ⟨hu, hwu⟩ := hTrie.shape.child 0 (Nat.zero_le _) i u hChild
        rw [hTrie.shape.root, List.nil_append] at hwu
        rw [longestPrefix, ← hwu, longestSuffix_of_mem (hTrie.shape.word_mem hu), hwu,
          hTrie.shape.root] at hw
        simp at hw
    · rw [hTrie.shape.root, List.nil_append, ← hw, hTrie.shape.root]
  · rename_i h0
    rw [h.numStates] at ht
    -- the transition leaves the root, so it is one of the trie
    have hWord : word t = [i] := by
      have hSuffix : word t <:+ [i] := hw.symm ▸ longestSuffix_suffix (PrefixOfSome ps) [i]
      exact (List.suffix_cons_iff.mp hSuffix).resolve_right fun hNil =>
        hTrie.word_ne_nil ht h0 (List.suffix_nil.mp hNil)
    have hChild : trie.nextState 0 i = some t :=
      hTrie.next_of_mem (Nat.zero_le _) ht (by rw [hTrie.shape.root, hWord, List.nil_append])
    have hNotSeen : t ∉ seen := fun hSeen =>
      hNew ((h.seen_iff 0 (Nat.zero_le _) i t hChild).mp hSeen).2
    have hOwn : b.matchList t = (ps.filter (· = [i])).reverse := by
      rw [h.out_todo t h0 hNotSeen, hTrie.out t ht, hWord]
    have hLists : Lists ps (b.matchList t) (word t) := by
      rw [hOwn, hWord]
      refine ⟨Lists.own.trans (List.Perm.of_eq (List.filter_congr fun p hp => ?_)),
        fun p hp => (List.mem_filter.mp (List.mem_reverse.mp hp)).1⟩
      simp [List.suffix_cons_iff, (mem_filled.mp hp).2]
    refine ⟨_, rfl, Building.congr (h.push hTrie (Nat.zero_le _) hChild
      (fun hi => hNew hi.2) (h.goes 0 (Nat.zero_le _) i (Or.inl rfl)) ?_
      ⟨Nat.zero_le _, ?_⟩ hLists (fun s => rfl) (fun s => ?_) ⟨rfl, rfl, rfl⟩)
        hExpanded, ?_⟩
    · intro s hs
      obtain ⟨hs0, hsLe⟩ := h.range s hs
      obtain ⟨r, hr, c, hNext', hws⟩ := hTrie.parent hsLe hs0
      obtain ⟨rfl, -⟩ := (h.seen_iff r hr c s hNext').mp hs
      simp [hws, hWord, hTrie.shape.root]
    · simp [hWord, hTrie.shape.root, longestPrefix, longestSuffix]
    · split
      · rename_i hst
        rw [hst]
        rfl
      · rfl
    · refine hBlank.push (fun _ _ => rfl) ?_
      have hPrefix : PrefixOfSome ps [i] := hWord ▸ hTrie.shape.word_mem ht
      have hNot : ¬Blank ps (word t) := by
        rw [hWord, ← List.nil_append [i], blank_concat]
        exact fun hNil => hNil.2 hPrefix
      refine iff_of_false ?_ hNot
      simp [hOwn]

/-- The first loop of `Build_DFA` queues the states of depth 1. -/
theorem queueRoot_building (hTrie : Trie ps word trie) {b : Build}
    (h : Building ps word trie (fun _ _ => False) [] b) (hBlank : ListsBlank ps word [] b) :
    ∃ res, alphabet.foldlM Build.queueRoot (b, []) = some res ∧
      Building ps word trie (fun s _ => s = 0) res.2 res.1 ∧ ListsBlank ps word res.2 res.1 := by
  obtain ⟨res, hRun, hRes, hBlank⟩ := foldlM_invariant Build.queueRoot
    (fun done res => Building ps word trie (fun s c => s = 0 ∧ c ∈ done) res.2 res.1 ∧
      ListsBlank ps word res.2 res.1)
    alphabet (s := (b, [])) ⟨h.congr fun s _ c => by simp, hBlank⟩
      fun done i rest hSplit res hRes =>
      hRes.1.queueRoot hTrie hRes.2 (nodup_split hSplit nodup_alphabet)
  exact ⟨res, hRun, hRes.congr fun s _ c => by simp [mem_alphabet], hBlank⟩

/-! ### The queue -/

/-- The transitions visited while `r` is at work: those of the root and of the states before it,
and of `r` those for the bytes in `bytes`. -/
def Visited (done : List Nat) (r : Nat) (bytes : List UInt8) (s : Nat) (c : UInt8) : Prop :=
  s = 0 ∨ s ∈ done ∨ s = r ∧ c ∈ bytes

section Queue

variable {done queue : List Nat} {r : Nat} {bytes : List UInt8} {b : Build}

theorem Building.complete (hTrie : Trie ps word trie)
    (h : Building ps word trie (Visited done r bytes) (done ++ r :: queue) b) {s : Nat}
    (hs : s ≤ trie.numStates) (hLess : (word s).length < (word r).length) : s = 0 ∨
    s ∈ done := by
  by_cases h0 : s = 0
  · exact Or.inl h0
  · obtain ⟨p, hp, c, hNext, hw⟩ := hTrie.parent hs h0
    have hPLess : (word p).length < (word s).length := by simp [hw]
    have hP : p = 0 ∨ p ∈ done := h.complete hTrie hp (by omega)
    have hSeen : s ∈ done ++ r :: queue :=
      (h.seen_iff p hp c s hNext).mpr (hP.imp_right Or.inl)
    rcases List.mem_append.mp hSeen with hDone | hQueue
    · exact Or.inr hDone
    · have hSorted := (List.pairwise_append.mp h.sorted).2.1
      rcases List.mem_cons.mp hQueue with rfl | hQueue
      · omega
      · have := (List.pairwise_cons.mp hSorted).1 s hQueue
        omega
termination_by (word s).length

theorem Building.seen (hTrie : Trie ps word trie)
    (h : Building ps word trie (Visited done r bytes) (done ++ r :: queue) b) {s : Nat}
    (hs : s ≤ trie.numStates) (hLe : (word s).length ≤ (word r).length) :
    s = 0 ∨ s ∈ done ++ r :: queue := by
  by_cases h0 : s = 0
  · exact Or.inl h0
  · obtain ⟨p, hp, c, hNext, hw⟩ := hTrie.parent hs h0
    have hP := h.complete hTrie hp (by simp [hw] at hLe; omega)
    exact Or.inr ((h.seen_iff p hp c s hNext).mpr (hP.imp_right Or.inl))

/-- A state that has been on the queue is at most one deeper than the one at work. -/
theorem Building.length_le (hTrie : Trie ps word trie)
    (h : Building ps word trie (Visited done r bytes) (done ++ r :: queue) b) {s : Nat}
    (hs : s ∈ done ++ r :: queue) : (word s).length ≤ (word r).length + 1 := by
  obtain ⟨h0, hLe⟩ := h.range s hs
  obtain ⟨p, hp, c, hNext, hw⟩ := hTrie.parent hLe h0
  have hPLe : (word p).length ≤ (word r).length := by
    rcases (h.seen_iff p hp c s hNext).mp hs with rfl | hDone | ⟨rfl, -⟩
    · simp [hTrie.shape.root]
    · exact (List.pairwise_append.mp h.sorted).2.2 p hDone r List.mem_cons_self
    · exact Nat.le_refl _
  simpa [hw] using hPLe

/-- The failure of the state at work has its final transitions, and they lead to the longest
suffix of the word of the state and the byte that does not begin at its first byte. -/
theorem Building.goes_fail (hTrie : Trie ps word trie)
    (h : Building ps word trie (Visited done r bytes) (done ++ r :: queue) b) (i : UInt8) :
    ∃ t ≤ trie.numStates, b.nextState (b.failState r) i = some t ∧
      word t = longestPrefix ps ((word r).tail ++ [i]) := by
  have hr := h.range r (by simp)
  obtain ⟨hf, hwf⟩ := h.fail r (by simp)
  have hNonempty := hTrie.word_ne_nil hr.2 hr.1
  have hLess : (word (b.failState r)).length < (word r).length := by
    have hLe := longestSuffix_length_le (PrefixOfSome ps) (word r).tail
    have := List.length_pos_iff.mpr hNonempty
    rw [hwf, longestPrefix]
    rw [List.length_tail] at hLe
    omega
  obtain ⟨t, ht, hNext, hw⟩ :=
    h.goes _ hf i (Or.inr ((h.complete hTrie hf hLess).imp_right Or.inl))
  refine ⟨t, h.numStates ▸ ht, hNext, ?_⟩
  rw [hw, hwf]
  exact (longestSuffix_concat PrefixOfSome.nil PrefixOfSome.init _ _).symm

theorem foldl_addMatchListEntry (s : Nat) (mlist : List Pattern) (b : Build) :
    mlist.foldl (fun b pat => b.addMatchListEntry s pat) b =
      { b with matchList := fun s' => if s' = s then mlist.reverse ++ b.matchList s'
                                      else b.matchList s' } := by
  induction mlist generalizing b with
  | nil => simp
  | cons p mlist ih =>
    rw [List.foldl_cons, ih]
    simp only [Build.addMatchListEntry]
    congr 2
    funext s'
    by_cases hs : s' = s <;> simp [hs]

theorem visited_concat {i : UInt8} {s : Nat} {c : UInt8} :
    Visited done r (bytes ++ [i]) s c ↔ Visited done r bytes s c ∨ s = r ∧ c = i := by
  simp only [Visited, List.mem_append, List.mem_singleton]
  tauto

theorem Building.not_visited
    (h : Building ps word trie (Visited done r bytes) (done ++ r :: queue) b) {i : UInt8}
    (hNew : i ∉ bytes) : ¬Visited done r bytes r i := by
  rintro (h0 | hDone | ⟨-, hi⟩)
  · exact (h.range r (by simp)).1 h0
  · exact (List.nodup_append.mp h.nodup).2.2 r hDone r List.mem_cons_self rfl
  · exact hNew hi

/-- A transition that the trie lacks becomes the one of the failure. -/
theorem Building.buildByte_none (hTrie : Trie ps word trie)
    (h : Building ps word trie (Visited done r bytes) (done ++ r :: queue) b) {i : UInt8}
    (hNew : i ∉ bytes) (hChild : trie.nextState r i = none) :
    Build.buildByte r (b, queue) i = some (b.setNext r i (b.nextState (b.failState r) i), queue) ∧
      Building ps word trie (Visited done r (bytes ++ [i])) (done ++ r :: queue)
        (b.setNext r i (b.nextState (b.failState r) i)) := by
  obtain ⟨hr0, hr⟩ := h.range r (by simp)
  obtain ⟨t, ht, hNext, hw⟩ := h.goes_fail hTrie i
  have hRow := h.todo r hr i hr0 (h.not_visited hNew)
  have hGoes : Goes ps word (b.setNext r i (b.nextState (b.failState r) i)) r i := by
    refine ⟨t, h.numStates ▸ ht, by simpa using hNext, ?_⟩
    have hNot := hTrie.shape.leaf r hr i hChild
    rw [hw]
    cases hWord : word r with
    | nil => exact absurd hWord (hTrie.word_ne_nil hr hr0)
    | cons a w =>
      rw [hWord] at hNot
      exact (if_neg hNot).symm
  have hExpand := h.expand hChild hGoes
    (fun s c hsc => by rw [Build.setNext_nextState, if_neg hsc]) ⟨rfl, rfl, rfl, rfl⟩
  exact ⟨by simp [Build.buildByte, hRow, hChild], hExpand.congr fun _ _ _ => visited_concat⟩

/-- State `s` is the child of the state at work for byte `i`.  Its failure `t` is shallower, so it
has been on the queue. -/
structure Child (ps : List Pattern) (word : Nat → Pattern) (trie : Build) (seen : List Nat)
    (r : Nat) (i : UInt8) (s t : Nat) : Prop where
  le : s ≤ trie.numStates
  word_eq : word s = word r ++ [i]
  ne_zero : s ≠ 0
  fresh : s ∉ seen
  fail_le : t ≤ trie.numStates
  fail_word : word t = longestPrefix ps (word s).tail
  fail_seen : t = 0 ∨ t ∈ seen

theorem Building.child (hTrie : Trie ps word trie)
    (h : Building ps word trie (Visited done r bytes) (done ++ r :: queue) b) {i : UInt8}
    (hNew : i ∉ bytes) {s : Nat} (hChild : trie.nextState r i = some s) :
    ∃ t, b.nextState (b.failState r) i = some t ∧
      Child ps word trie (done ++ r :: queue) r i s t := by
  obtain ⟨hr0, hr⟩ := h.range r (by simp)
  obtain ⟨hs, hws⟩ := hTrie.shape.child r hr i s hChild
  obtain ⟨t, ht, hNext, hw⟩ := h.goes_fail hTrie i
  have hTail : (word s).tail = (word r).tail ++ [i] := by
    rw [hws, List.tail_append_of_ne_nil (hTrie.word_ne_nil hr hr0)]
  have hLe : (word t).length ≤ (word r).length := by
    have := longestSuffix_length_le (PrefixOfSome ps) (word s).tail
    rw [hw, ← hTail]
    simpa [longestPrefix, hws] using this
  refine ⟨t, hNext, hs, hws, ?_, fun hSeen => ?_, ht, hTail ▸ hw, h.seen hTrie ht hLe⟩
  · rintro rfl
    simp [hTrie.shape.root] at hws
  · exact h.not_visited hNew ((h.seen_iff r hr i s hChild).mp hSeen)

section Child

variable {i : UInt8} {s t : Nat}

theorem Child.word_ne_nil (hc : Child ps word trie (done ++ r :: queue) r i s t) :
    word s ≠ [] := by
  rw [hc.word_eq]
  exact List.concat_ne_nil _ _

/-- Before its round the child has the patterns that are its own word. -/
theorem Child.own (hc : Child ps word trie (done ++ r :: queue) r i s t) (hTrie : Trie ps word trie)
    (h : Building ps word trie (Visited done r bytes) (done ++ r :: queue) b) :
    b.matchList s = (ps.filter (· = word s)).reverse := by
  rw [h.out_todo s hc.ne_zero hc.fresh, hTrie.out s hc.le]

/-- The matches of the failure and the own ones are all that end at the child. -/
theorem Child.lists (hc : Child ps word trie (done ++ r :: queue) r i s t)
    (hTrie : Trie ps word trie)
    (h : Building ps word trie (Visited done r bytes) (done ++ r :: queue) b) :
    Lists ps ((b.matchList t).reverse ++ b.matchList s) (word s) := by
  have hOut := h.out t hc.fail_seen
  have hOwn := hc.own hTrie h
  rw [hc.fail_word] at hOut
  refine ⟨?_, fun p hp => ?_⟩
  · rw [filled, List.filter_append, hOwn]
    exact ((((List.reverse_perm _).filter _).trans hOut.1).append Lists.own).trans
      (List.perm_append_comm.trans (endings_perm hc.word_ne_nil))
  · rcases List.mem_append.mp hp with hp | hp
    · exact hOut.2 p (List.mem_reverse.mp hp)
    · exact (List.mem_filter.mp (List.mem_reverse.mp (hOwn ▸ hp))).1

theorem Child.blank (hc : Child ps word trie (done ++ r :: queue) r i s t)
    (hTrie : Trie ps word trie)
    (h : Building ps word trie (Visited done r bytes) (done ++ r :: queue) b)
    (hBlank : ListsBlank ps word (done ++ r :: queue) b) :
    [] ∈ (b.matchList t).reverse ++ b.matchList s ↔ Blank ps (word s) := by
  have hTail : (word s).tail = (word r).tail ++ [i] := by
    rw [hc.word_eq, List.tail_append_of_ne_nil]
    obtain ⟨hr0, hr⟩ := h.range r (by simp)
    exact hTrie.word_ne_nil hr hr0
  have hNotOwn : [] ∉ b.matchList s := by
    simp [hc.own hTrie h, hc.word_ne_nil.symm]
  rw [List.mem_append, List.mem_reverse, or_iff_left hNotOwn, hBlank t hc.fail_seen, hc.fail_word,
    blank_longestPrefix, hTail, hc.word_eq, blank_concat, blank_concat]

/-- A transition of the trie: the child joins the queue with its failure and its matches. -/
theorem Building.buildByte_some (hTrie : Trie ps word trie)
    (h : Building ps word trie (Visited done r bytes) (done ++ r :: queue) b)
    (hBlank : ListsBlank ps word (done ++ r :: queue) b) (hNew : i ∉ bytes)
    (hChild : trie.nextState r i = some s) :
    ∃ b', Build.buildByte r (b, queue) i = some (b', queue ++ [s]) ∧
      Building ps word trie (Visited done r (bytes ++ [i])) (done ++ r :: (queue ++ [s])) b' ∧
      ListsBlank ps word (done ++ r :: (queue ++ [s])) b' := by
  obtain ⟨hr0, hr⟩ := h.range r (by simp)
  obtain ⟨t, hNext, hc⟩ := h.child hTrie hNew hChild
  have hRow := h.todo r hr i hr0 (h.not_visited hNew)
  have hGoes : Goes ps word b r i := ⟨s, h.numStates ▸ hc.le, hRow.trans hChild, by
    rw [← hc.word_eq, longestPrefix, longestSuffix_of_mem (hTrie.shape.word_mem hc.le)]⟩
  let b' : Build := { b.setFail s t with
    matchList := fun s' => if s' = s then (b.matchList t).reverse ++ b.matchList s'
                           else b.matchList s' }
  have hMatch : ∀ s', b'.matchList s' =
      if s' = s then (b.matchList t).reverse ++ b.matchList s else b.matchList s' := fun s' => by
    by_cases hs' : s' = s <;> simp [b', hs']
  have hRun : Build.buildByte r (b, queue) i = some (b', queue ++ [s]) := by
    simp [Build.buildByte, hRow, hChild, Build.nextValid, hNext, foldl_addMatchListEntry, b']
  have hPush := h.push hTrie hr hChild (h.not_visited hNew) hGoes
    (fun q hq => by simpa [hc.word_eq] using h.length_le hTrie hq) ⟨hc.fail_le, hc.fail_word⟩
    (hc.lists hTrie h) (fun s' => show b'.failState s' = _ from rfl) hMatch ⟨rfl, rfl, rfl⟩
  have hSame : ∀ s', s' = 0 ∨ s' ∈ done ++ r :: queue →
      b'.matchList s' = b.matchList s' := by
    intro s' hs'
    rw [hMatch s', if_neg]
    rintro rfl
    exact hs'.elim hc.ne_zero hc.fresh
  have hListed : [] ∈ b'.matchList s ↔ Blank ps (word s) := by
    rw [hMatch s, if_pos rfl]
    exact hc.blank hTrie h hBlank
  have hKept := hBlank.push hSame hListed
  rw [List.append_assoc, List.cons_append] at hPush hKept
  exact ⟨b', hRun, hPush.congr fun _ _ _ => visited_concat, hKept⟩

end Child

/-- One round of the inner loop of `Build_DFA`. -/
theorem Building.buildByte (hTrie : Trie ps word trie)
    (h : Building ps word trie (Visited done r bytes) (done ++ r :: queue) b)
    (hBlank : ListsBlank ps word (done ++ r :: queue) b) {i : UInt8} (hNew : i ∉ bytes) :
    ∃ res, Build.buildByte r (b, queue) i = some res ∧
      Building ps word trie (Visited done r (bytes ++ [i])) (done ++ r :: res.2) res.1 ∧
      ListsBlank ps word (done ++ r :: res.2) res.1 := by
  cases hChild : trie.nextState r i with
  | none =>
    obtain ⟨hRun, hBuilding⟩ := h.buildByte_none hTrie hNew hChild
    exact ⟨_, hRun, hBuilding, hBlank⟩
  | some s =>
    obtain ⟨b', hRun, hBuilding, hKept⟩ := h.buildByte_some hTrie hBlank hNew hChild
    exact ⟨_, hRun, hBuilding, hKept⟩

/-- The inner loop of `Build_DFA`. -/
theorem Building.row (hTrie : Trie ps word trie)
    (h : Building ps word trie (Visited done r []) (done ++ r :: queue) b)
    (hBlank : ListsBlank ps word (done ++ r :: queue) b) :
    ∃ res, alphabet.foldlM (Build.buildByte r) (b, queue) = some res ∧
      Building ps word trie (fun s _ => s = 0 ∨ s ∈ done ++ [r]) (done ++ r :: res.2) res.1 ∧
      ListsBlank ps word (done ++ r :: res.2) res.1 := by
  obtain ⟨res, hRun, hRes, hBlank⟩ := foldlM_invariant (Build.buildByte r)
    (fun bytes res => Building ps word trie (Visited done r bytes) (done ++ r :: res.2) res.1 ∧
      ListsBlank ps word (done ++ r :: res.2) res.1)
    alphabet (s := (b, queue)) ⟨h, hBlank⟩ fun bytes i rest hSplit res hRes =>
      hRes.1.buildByte hTrie hRes.2 (nodup_split hSplit nodup_alphabet)
  exact ⟨res, hRun, hRes.congr fun s _ c => by simp [Visited, mem_alphabet], hBlank⟩

end Queue

/-- The outer loop of `Build_DFA` has rounds for all states that join the queue. -/
theorem Building.buildStates (hTrie : Trie ps word trie) {done queue : List Nat} {b : Build}
    (h : Building ps word trie (fun s _ => s = 0 ∨ s ∈ done) (done ++ queue) b)
    (hBlank : ListsBlank ps word (done ++ queue) b) {fuel : Nat}
    (hFuel : trie.numStates ≤ done.length + fuel) :
    ∃ b' done', Build.buildStates fuel b queue = some b' ∧
      Building ps word trie (fun s _ => s = 0 ∨ s ∈ done') done' b' ∧
      ListsBlank ps word done' b' := by
  induction fuel generalizing b done queue with
  | zero =>
    cases queue with
    | nil => exact ⟨b, done, rfl, by simpa using h, by simpa using hBlank⟩
    | cons r queue =>
      have hSub : (done ++ r :: queue) ⊆ List.range' 1 trie.numStates := fun s hs => by
        obtain ⟨h0, hLe⟩ := h.range s hs
        exact List.mem_range'_1.mpr ⟨by omega, by omega⟩
      have := (List.subperm_of_subset h.nodup hSub).length_le
      simp only [List.length_append, List.length_cons, List.length_range'] at this
      omega
  | succ fuel ih =>
    cases queue with
    | nil => exact ⟨b, done, rfl, by simpa using h, by simpa using hBlank⟩
    | cons r queue =>
      obtain ⟨res, hRun, hRes, hKept⟩ :=
        Building.row hTrie (h.congr fun s _ c => by simp [Visited]) hBlank
      rw [Build.buildStates, hRun]
      refine ih (show Building ps word trie (fun s _ => s = 0 ∨ s ∈ done ++ [r])
        ((done ++ [r]) ++ res.2) res.1 by simpa using hRes) (by simpa using hKept) ?_
      rw [List.length_append, List.length_singleton]
      omega

/-! ### The automaton -/

/-- A complete automaton of the patterns: its state after a text stands for the longest suffix of
the text that begins a pattern. -/
structure Compiled (ps : List Pattern) (word : Nat → Pattern) (b : Build) : Prop where
  root : word 0 = []
  goes : ∀ s ≤ b.numStates, ∀ c, Goes ps word b s c
  out : ∀ s ≤ b.numStates, Lists ps (b.matchList s) (word s)
  dept : ∀ s ≤ b.numStates, b.dept s = (word s).length
  size : b.numStates < maxStates ps

/-- All states have been on the queue in the end. -/
theorem Building.all_seen (hTrie : Trie ps word trie) {done : List Nat} {b : Build}
    (h : Building ps word trie (fun s _ => s = 0 ∨ s ∈ done) done b) {s : Nat}
    (hs : s ≤ trie.numStates) : s = 0 ∨ s ∈ done := by
  induction hn : (word s).length using Nat.strong_induction_on generalizing s with
  | _ n ih =>
    by_cases h0 : s = 0
    · exact Or.inl h0
    · obtain ⟨p, hp, c, hNext, hw⟩ := hTrie.parent hs h0
      exact Or.inr ((h.seen_iff p hp c s hNext).mpr (ih _ (by simp [← hn, hw]) hp rfl))

theorem Building.compiled (hTrie : Trie ps word trie) {done : List Nat} {b : Build}
    (h : Building ps word trie (fun s _ => s = 0 ∨ s ∈ done) done b) : Compiled ps word b := by
  refine ⟨hTrie.shape.root, fun s hs c => ?_, fun s hs => ?_, fun s hs => ?_, ?_⟩
  · rw [h.numStates] at hs
    exact h.goes s hs c (Or.inr (h.all_seen hTrie hs))
  · rw [h.numStates] at hs
    exact h.out s (h.all_seen hTrie hs)
  · rw [h.numStates] at hs
    rw [h.dept, hTrie.shape.dept s hs]
  · have := hTrie.size
    rw [h.numStates, maxStates]
    omega

/-- The trie of the patterns, before `Build_DFA`. -/
def trieOf (ps : List Pattern) : Build := ps.foldl Build.addPatternStates Build.start

/-- The path of a word in the trie of the patterns ends at the state. -/
def Spells (ps : List Pattern) (w : Pattern) (s : Nat) : Prop := (trieOf ps).matchUp 0 w = (s, [])

theorem Trie.spells (h : Trie ps word (trieOf ps)) {s : Nat} (hs : s ≤ (trieOf ps).numStates) :
    Spells ps (word s) s := by
  obtain ⟨hState, hSplit, hNone⟩ := h.shape.matchUp (word s) (Nat.zero_le _)
  rw [h.shape.root, List.nil_append] at hSplit
  have hRest : ((trieOf ps).matchUp 0 (word s)).2 = [] := by
    cases hCons : ((trieOf ps).matchUp 0 (word s)).2 with
    | nil => rfl
    | cons c rest =>
      -- the path would go on: its next word begins a pattern too, so it has a state
      rw [hCons] at hSplit
      have hPrefix : word ((trieOf ps).matchUp 0 (word s)).1 ++ [c] <+: word s :=
        ⟨rest, by rwa [List.append_assoc, List.singleton_append]⟩
      have hMem := h.shape.word_mem hs
      obtain ⟨u, hu, hw⟩ := (h.shape.mem _).mp (PrefixOfSome.of_prefix hMem hPrefix)
      have hNext := h.next_of_mem hState hu hw
      rw [hNone c rest hCons] at hNext
      exact absurd hNext.symm (Option.some_ne_none u)
  rw [hRest, List.append_nil] at hSplit
  exact Prod.ext (h.shape.injective _ hState s hs hSplit) hRest

/-- `acsmCompile` builds the automaton of every list of patterns over the states of their trie, and
a state lists the empty pattern where the last byte of its word begins no pattern. -/
theorem compile_trie (ps : List Pattern) :
    ∃ b word, compile ps = some b ∧ Compiled ps word b ∧
      (∀ s ≤ b.numStates, [] ∈ b.matchList s ↔ Blank ps (word s)) ∧
      ∀ s ≤ b.numStates, Spells ps (word s) s := by
  obtain ⟨word, hTrie⟩ := foldl_trie ps
  have hSpells := fun s (hs : s ≤ (trieOf ps).numStates) => Trie.spells hTrie hs
  generalize hStart : ps.foldl Build.addPatternStates Build.start = trie at hTrie
  rw [trieOf, hStart] at hSpells
  obtain ⟨res, hRoot, hRes, hBlank⟩ :=
    queueRoot_building hTrie (fillRoot_building hTrie) (fillRoot_blank hTrie)
  have hQueue : Building ps word trie (fun s _ => s = 0 ∨ s ∈ []) ([] ++ res.2) res.1 :=
    hRes.congr fun s _ c => by simp
  obtain ⟨b, done, hRun, hDone, hBlank⟩ := hQueue.buildStates hTrie hBlank
    (show _ ≤ _ + res.1.numStates by simp [hRes.numStates])
  refine ⟨b, word, ?_, hDone.compiled hTrie, fun s hs => ?_, fun s hs => ?_⟩
  · rw [compile, hStart, Build.buildDfa, hRoot]
    exact hRun
  · exact hBlank s (hDone.all_seen hTrie (hDone.numStates ▸ hs))
  · exact hSpells s (hDone.numStates ▸ hs)

theorem compile_lists (ps : List Pattern) :
    ∃ b word, compile ps = some b ∧ Compiled ps word b ∧
      ∀ s ≤ b.numStates, [] ∈ b.matchList s ↔ Blank ps (word s) := by
  obtain ⟨b, word, hCompile, hCompiled, hBlank, -⟩ := compile_trie ps
  exact ⟨b, word, hCompile, hCompiled, hBlank⟩

theorem compile_compiled (ps : List Pattern) :
    ∃ b word, compile ps = some b ∧ Compiled ps word b := by
  obtain ⟨b, word, hCompile, hCompiled, -⟩ := compile_lists ps
  exact ⟨b, word, hCompile, hCompiled⟩

end Shutter.Acsm
