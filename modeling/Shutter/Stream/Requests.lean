import Shutter.Stream.Head
import Mathlib.Data.List.Infix

/-! The requests of a byte string, and the scan that cuts them out.  Markers do not overlap, so the
scan from marker end to marker end finds every marker, as long as `get_ReN` does not stop early:
it compares the end of a match with the length of the string behind the match. -/

namespace Shutter.Stream

open Shutter.Acsm (cstr_eq)

/-- The string starts with a marker. -/
def Marked (s : List UInt8) : Prop := ∃ m ∈ markers, m <+: s

instance (s : List UInt8) : Decidable (Marked s) :=
  inferInstanceAs (Decidable (∃ m ∈ markers, m <+: s))

/-- The bytes before the first marker. -/
def upToMarker : List UInt8 → List UInt8
  | [] => []
  | c :: s => if Marked (c :: s) then [] else c :: upToMarker s

/-- The first byte, which starts a marker, and the bytes up to the next marker or the end. -/
def requestFrom : List UInt8 → List UInt8
  | [] => []
  | c :: s => c :: upToMarker s

/-- The requests of a string: one from each marker. -/
def requestsOf : List UInt8 → List (List UInt8)
  | [] => []
  | c :: s => if Marked (c :: s) then requestFrom (c :: s) :: requestsOf s else requestsOf s

/-- The positions of the markers. -/
def positions : List UInt8 → List Nat
  | [] => []
  | c :: s => if Marked (c :: s) then 0 :: (positions s).map (· + 1) else
      (positions s).map (· + 1)

/-- No marker starts at the bytes of the string. -/
def Unmarked (s : List UInt8) : Prop := ∀ i, ¬Marked (s.drop i)

/-! ### Markers -/

theorem markers_length {m : List UInt8} (h : m ∈ markers) : 0 < m.length := by
  revert m
  decide

/-- No marker fits into another one behind its first byte. -/
theorem markers_incompatible : ∀ m ∈ markers, ∀ m' ∈ markers, ∀ i ∈ List.range m.length,
    0 < i → ¬m.drop i <+: m' ∧ ¬m' <+: m.drop i := by
  decide

@[simp] theorem not_marked_nil : ¬Marked [] := by decide

theorem Marked.append {s : List UInt8} (h : Marked s) (v : List UInt8) : Marked (s ++ v) := by
  obtain ⟨m, hm, hPrefix⟩ := h
  exact ⟨m, hm, hPrefix.trans (List.prefix_append s v)⟩

theorem not_marked_drop {m s : List UInt8} (hm : m ∈ markers) (h : m <+: s) {i : Nat} (hi : 0 < i)
    (hLt : i < m.length) : ¬Marked (s.drop i) := by
  rintro ⟨m', hm', h'⟩
  obtain ⟨h₁, h₂⟩ := markers_incompatible m hm m' hm' i (List.mem_range.mpr hLt) hi
  rcases List.prefix_or_prefix_of_prefix (h.drop i) h' with hLe | hLe
  · exact h₁ hLe
  · exact h₂ hLe

theorem markerAt_eq_none_iff {s : List UInt8} : markerAt s = none ↔ ¬Marked s := by
  simp [markerAt, Marked]

theorem markerAt_eq_some {s m : List UInt8} (h : markerAt s = some m) :
    m ∈ markers ∧ m <+: s :=
  ⟨List.mem_of_find?_eq_some h, by simpa using List.find?_some h⟩

/-- `regexec` finds the first marker. -/
theorem regexec_spec (s : List UInt8) :
    (regexec s = none ∧ Unmarked s) ∨
    ∃ so m, regexec s = some (so, so + m.length) ∧ m ∈ markers ∧ m <+: s.drop so ∧
      ∀ i < so, ¬Marked (s.drop i) := by
  induction s with
  | nil => exact Or.inl ⟨rfl, fun i => by simp⟩
  | cons c s ih =>
    unfold regexec
    cases hMarker : markerAt (c :: s) with
    | some m =>
      obtain ⟨hm, hPrefix⟩ := markerAt_eq_some hMarker
      exact Or.inr ⟨0, m, by simp, hm, hPrefix, fun i hi => absurd hi (Nat.not_lt_zero i)⟩
    | none =>
      have hNot := markerAt_eq_none_iff.mp hMarker
      rcases ih with ⟨hNone, hUnmarked⟩ | ⟨so, m, hSome, hm, hPrefix, hBefore⟩
      · refine Or.inl ⟨by simp [hNone], fun i => ?_⟩
        cases i with
        | zero => exact hNot
        | succ i => exact hUnmarked i
      · refine Or.inr ⟨so + 1, m, by simp [hSome]; omega, hm, hPrefix, fun i hi => ?_⟩
        cases i with
        | zero => exact hNot
        | succ i => exact hBefore i (Nat.lt_of_succ_lt_succ hi)

theorem regexec_marked {t : List UInt8} {a : Nat} (h : regexec (t.drop a) ≠ none) :
    ∃ q, a ≤ q ∧ Marked (t.drop q) := by
  rcases regexec_spec (t.drop a) with ⟨hNone, -⟩ | ⟨so, m, -, hm, hPrefix, -⟩
  · exact absurd hNone h
  · rw [List.drop_drop] at hPrefix
    exact ⟨a + so, Nat.le_add_right a so, m, hm, hPrefix⟩

/-! ### Positions and requests -/

theorem positions_of_unmarked {s : List UInt8} (h : Unmarked s) : positions s = [] := by
  induction s with
  | nil => rfl
  | cons c s ih =>
    have hNot : ¬Marked (c :: s) := h 0
    rw [positions, if_neg hNot, ih fun i => h (i + 1), List.map_nil]

theorem positions_drop {s : List UInt8} {n : Nat} (hn : n ≤ s.length)
    (h : ∀ i < n, ¬Marked (s.drop i)) : positions s = (positions (s.drop n)).map (n + ·) := by
  induction n generalizing s with
  | zero => simp
  | succ n ih =>
    cases s with
    | nil => simp at hn
    | cons c s =>
      have hRest := ih (s := s) (by simpa using hn) fun i hi => h (i + 1) (by omega)
      have hNot : ¬Marked (c :: s) := h 0 (Nat.succ_pos n)
      rw [positions, if_neg hNot, hRest, List.map_map, List.drop_succ_cons]
      refine List.map_congr_left fun p _ => ?_
      simp only [Function.comp_apply]
      omega

theorem positions_marker {m s : List UInt8} (hm : m ∈ markers) (h : m <+: s) :
    positions s = 0 :: (positions (s.drop m.length)).map (m.length + ·) := by
  have hPos := markers_length hm
  have hLe := h.length_le
  cases s with
  | nil =>
    rw [List.length_nil] at hLe
    omega
  | cons c s =>
    have hRest := positions_drop (s := s) (n := m.length - 1) (by simp at hLe; omega) fun i hi =>
      not_marked_drop hm h (Nat.succ_pos i) (by omega)
    obtain ⟨n, hn⟩ : ∃ n, m.length = n + 1 := ⟨m.length - 1, by omega⟩
    rw [positions, if_pos ⟨m, hm, h⟩, hRest, hn, List.drop_succ_cons, Nat.add_sub_cancel,
      List.map_map]
    congr 1
    refine List.map_congr_left fun p _ => ?_
    simp only [Function.comp_apply]
    omega

theorem mem_requestsOf {s r : List UInt8} :
    r ∈ requestsOf s ↔ ∃ i, Marked (s.drop i) ∧ r = requestFrom (s.drop i) := by
  induction s with
  | nil => simp [requestsOf]
  | cons c s ih =>
    have hSplit : (∃ i, Marked ((c :: s).drop i) ∧ r = requestFrom ((c :: s).drop i)) ↔
        (Marked (c :: s) ∧ r = requestFrom (c :: s)) ∨ r ∈ requestsOf s := by
      rw [ih]
      constructor
      · rintro ⟨i, h⟩
        cases i with
        | zero => exact Or.inl h
        | succ i => exact Or.inr ⟨i, h⟩
      · rintro (h | ⟨i, h⟩)
        · exact ⟨0, h⟩
        · exact ⟨i + 1, h⟩
    rw [hSplit, requestsOf]
    split <;> simp [*]

theorem mem_requestsOf_of_drop {s r : List UInt8} {n : Nat} (h : r ∈ requestsOf (s.drop n)) :
    r ∈ requestsOf s := by
  obtain ⟨i, hMarked, rfl⟩ := mem_requestsOf.mp h
  rw [List.drop_drop] at hMarked ⊢
  exact mem_requestsOf.mpr ⟨_, hMarked, rfl⟩

theorem upToMarker_of_unmarked {s : List UInt8} (h : Unmarked s) : upToMarker s = s := by
  induction s with
  | nil => rfl
  | cons c s ih =>
    have hNot : ¬Marked (c :: s) := h 0
    rw [upToMarker, if_neg hNot, ih fun i => h (i + 1)]

theorem requestsOf_of_unmarked {s : List UInt8} (h : Unmarked s) : requestsOf s = [] :=
  List.eq_nil_iff_forall_not_mem.mpr fun _ hr =>
    let ⟨i, hi, _⟩ := mem_requestsOf.mp hr
    h i hi

theorem upToMarker_eq_take (s : List UInt8) :
    upToMarker s = s.take ((positions s).head?.getD s.length) := by
  induction s with
  | nil => rfl
  | cons c s ih =>
    unfold upToMarker positions
    split
    · simp
    · rw [ih]
      cases positions s <;> simp

/-- The requests are the string without the bytes before its first marker. -/
theorem upToMarker_append_requestsOf (s : List UInt8) :
    upToMarker s ++ (requestsOf s).flatten = s := by
  induction s with
  | nil => rfl
  | cons c s ih =>
    unfold upToMarker requestsOf
    split <;> simp [requestFrom, ih]

theorem requestsOf_length (s : List UInt8) :
    (upToMarker s).length + ((requestsOf s).map List.length).sum = s.length := by
  conv_rhs => rw [← upToMarker_append_requestsOf s]
  rw [List.length_append, List.length_flatten]

theorem requestsOf_positions_length (s : List UInt8) :
    (requestsOf s).length = (positions s).length := by
  induction s with
  | nil => rfl
  | cons c s ih =>
    unfold requestsOf positions
    split <;> simp [ih]

theorem lengths_map_succ (n : Nat) (offset : List Nat) :
    lengths (n + 1) (offset.map (· + 1)) = lengths n offset := by
  induction offset with
  | nil => rfl
  | cons o offset ih =>
    cases offset with
    | nil => simp [lengths]
    | cons o' offset =>
      simp only [List.map_cons, lengths] at ih ⊢
      rw [ih]
      congr 1
      omega

theorem pieces_positions {s : List UInt8} {o : Nat} {offset : List Nat}
    (h : positions s = o :: offset) :
    pieces (s.drop o) (lengths s.length (o :: offset)) = requestsOf s := by
  induction s generalizing o offset with
  | nil => simp [positions] at h
  | cons c s ih =>
    unfold positions at h
    unfold requestsOf
    split
    · rename_i hMarked
      rw [if_pos hMarked] at h
      obtain ⟨rfl, rfl⟩ := List.cons.inj h
      cases hRest : positions s with
      | nil =>
        have hLength := requestsOf_positions_length s
        rw [hRest, List.length_nil, List.length_eq_zero_iff] at hLength
        simp [lengths, pieces, requestFrom, upToMarker_eq_take s, hRest, hLength]
      | cons o offset =>
        have hPieces := ih hRest
        have hLengths := lengths_map_succ s.length (o :: offset)
        simp only [List.map_cons] at hLengths
        simp only [List.map_cons, lengths, pieces, List.drop_zero, List.length_cons, hLengths,
          Nat.sub_zero, List.take_succ_cons, List.drop_succ_cons, hPieces, requestFrom,
          upToMarker_eq_take s, hRest, List.head?_cons, Option.getD_some]
    · rename_i hNot
      rw [if_neg hNot] at h
      obtain ⟨o', offset', hRest, rfl, rfl⟩ := List.map_eq_cons_iff.mp h
      rw [← ih hRest, List.drop_succ_cons, List.length_cons, ← lengths_map_succ s.length]
      rfl

/-! ### The scan -/

/-- `a` is the start of the string or the end of a marker in it. -/
def ScanStart (t : List UInt8) (a : Nat) : Prop :=
  a = 0 ∨ ∃ p, ∃ m ∈ markers, m <+: t.drop p ∧ a = p + m.length

/-- `get_ReN` stops before the last marker: from a place where it looks for the next marker to the
end of that marker there are as many bytes as behind it, and there is another marker behind it. -/
def CutShort (t : List UInt8) : Prop :=
  ∃ a so eo, ScanStart t a ∧ regexec (t.drop a) = some (so, eo) ∧
    eo = (t.drop (a + eo)).length ∧
    regexec (t.drop (a + eo)) ≠ none

theorem ScanStart.next {t m : List UInt8} {a so : Nat} (hm : m ∈ markers)
    (hPrefix : m <+: (t.drop a).drop so) : ScanStart t (a + (so + m.length)) := by
  refine Or.inr ⟨a + so, m, hm, ?_, by omega⟩
  rwa [List.drop_drop] at hPrefix

theorem positions_match {t m : List UInt8} {a so : Nat} (hm : m ∈ markers)
    (hPrefix : m <+: (t.drop a).drop so) (hBefore : ∀ i < so, ¬Marked ((t.drop a).drop i)) :
    positions (t.drop a) =
      so :: (positions (t.drop (a + (so + m.length)))).map (so + m.length + ·) := by
  have hPos := markers_length hm
  have hFit := hPrefix.length_le
  have hLe : so ≤ (t.drop a).length := by
    rw [List.length_drop] at hFit
    omega
  rw [positions_drop hLe hBefore, positions_marker hm hPrefix, List.drop_drop, List.drop_drop,
    List.map_cons, List.map_map, Nat.add_zero]
  congr 2
  funext p
  simp only [Function.comp_apply]
  omega

/-- The loop of `get_ReN` finds the markers of the string that is left. -/
theorem reNLoop_eq {t : List UInt8} (hCut : ¬CutShort t) {fuel a anchor so eo : Nat}
    {offset : List Nat} (hStart : ScanStart t a) (hBase : anchor + (eo - so) = a)
    (hFuel : (t.drop a).length < fuel) :
    reNLoop fuel (t.drop a) anchor so eo offset =
      offset ++ (positions (t.drop a)).map (a + ·) := by
  induction fuel generalizing a anchor so eo offset with
  | zero => omega
  | succ fuel ih =>
    unfold reNLoop
    rcases regexec_spec (t.drop a) with ⟨hNone, hUnmarked⟩ | ⟨so', m, hSome, hm,
      hPrefix, hBefore⟩
    · simp [hNone, positions_of_unmarked hUnmarked]
    · have hPos := markers_length hm
      have hFit := hPrefix.length_le
      have hPositions := positions_match hm hPrefix hBefore
      have hDrop : (t.drop a).drop (so' + m.length) = t.drop (a + (so' + m.length)) := by
        rw [List.drop_drop]
      simp only [hSome, hDrop]
      split
      · rename_i hStop
        have hEnd : regexec (t.drop (a + (so' + m.length))) = none := by
          by_contra hMore
          exact hCut ⟨a, so', so' + m.length, hStart, hSome, hStop, hMore⟩
        have hLast : positions (t.drop (a + (so' + m.length))) = [] := by
          rcases regexec_spec (t.drop (a + (so' + m.length))) with ⟨-, h⟩ | ⟨_, _, h, -⟩
          · exact positions_of_unmarked h
          · simp [hEnd] at h
        rw [hPositions, hLast, hBase]
        rfl
      · rw [ih (a := a + (so' + m.length)), hPositions, hBase]
        · simp only [List.map_cons, List.map_map, List.append_assoc, List.singleton_append]
          congr 3
          funext p
          simp only [Function.comp_apply]
          omega
        · exact ScanStart.next hm hPrefix
        · omega
        · rw [List.length_drop] at hFuel hFit ⊢
          rw [List.length_drop] at hFit
          omega

theorem getReN_eq {t : List UInt8} (hCut : ¬CutShort t) (hCount : (positions t).length < 100) :
    getReN t = some (positions t) := by
  have hLoop : reNLoop (t.length + 1) (t.drop 0) 0 0 0 [] =
      [] ++ (positions (t.drop 0)).map (0 + ·) :=
    reNLoop_eq hCut (Or.inl rfl) rfl (Nat.lt_succ_self _)
  simp only [List.drop_zero, List.nil_append, Nat.zero_add, List.map_id'] at hLoop
  rw [getReN, hLoop]
  exact if_pos hCount

/-- `get_request` cuts a string into its requests, when the scan is not cut short and the arrays
suffice. -/
theorem getRequest_eq {t : List UInt8} (hNul : 0 ∉ t) (hCut : ¬CutShort t)
    (hCount : (requestsOf t).length < 100) : getRequest t = some (requestsOf t) := by
  have hReN := getReN_eq hCut (requestsOf_positions_length t ▸ hCount)
  rw [getRequest, cstr_eq hNul]
  simp only [hReN, Option.bind_eq_bind, Option.bind_some]
  cases hPositions : positions t with
  | nil =>
    have hLength := requestsOf_positions_length t
    rw [hPositions, List.length_nil, List.length_eq_zero_iff] at hLength
    rw [hLength]
  | cons o offset => exact congrArg some (pieces_positions hPositions)

/-! ### The whole scan -/

theorem mem_positions {s : List UInt8} {p : Nat} : p ∈ positions s ↔ Marked (s.drop p) := by
  induction s generalizing p with
  | nil => simp [positions]
  | cons c s ih =>
    unfold positions
    cases p with
    | zero => split <;> simp_all
    | succ p => split <;> simp [ih]

theorem positions_sorted (s : List UInt8) : (positions s).Pairwise (· < ·) := by
  induction s with
  | nil => exact List.Pairwise.nil
  | cons c s ih =>
    have hRest : ((positions s).map (· + 1)).Pairwise (· < ·) :=
      List.Pairwise.map _ (fun _ _ h => Nat.succ_lt_succ h) ih
    unfold positions
    split
    · exact List.Pairwise.cons (by simp) hRest
    · exact hRest

/-- Two markers at one place are one marker. -/
theorem marker_unique {m m' s : List UInt8} (hm : m ∈ markers)
    (hm' : m' ∈ markers) (h : m <+: s) (h' : m' <+: s) : m = m' := by
  have hDistinct : ∀ m ∈ markers, ∀ m' ∈ markers, m <+: m' → m = m' := by decide
  rcases List.prefix_or_prefix_of_prefix h h' with hLe | hLe
  · exact hDistinct m hm m' hm' hLe
  · exact (hDistinct m' hm' m hm hLe).symm

/-- A marker is at the place of another one or behind its end, if it does not lie before it. -/
theorem marker_behind {m t : List UInt8} (hm : m ∈ markers) {p q : Nat} (h : m <+: t.drop p)
    (hq : Marked (t.drop q)) (hLt : p < q) : p + m.length ≤ q := by
  by_contra hInside
  refine not_marked_drop hm h (i := q - p) (by omega) (by omega) ?_
  rwa [List.drop_drop, Nat.add_sub_cancel' (Nat.le_of_lt hLt)]

/-- Between two places where the scan looks for a marker lies a marker. -/
theorem ScanStart.behind {t m : List UInt8} {a a' so : Nat} (ha : ScanStart t a)
    (ha' : ScanStart t a') (hLt : a < a') (hm : m ∈ markers) (hPrefix : m <+: (t.drop a).drop so)
    (hBefore : ∀ i < so, ¬Marked ((t.drop a).drop i)) : a + (so + m.length) ≤ a' := by
  rw [List.drop_drop] at hPrefix
  rcases ha' with rfl | ⟨p, m', hm', hPrefix', rfl⟩
  · exact absurd hLt (Nat.not_lt_zero a)
  · have hFirst : ¬p < a + so := by
      intro hp
      by_cases hpa : a ≤ p
      · refine hBefore (p - a) (by omega) ?_
        rw [List.drop_drop, Nat.add_sub_cancel' hpa]
        exact ⟨m', hm', hPrefix'⟩
      · -- the marker at `p` would overlap the one that ends at `a`
        rcases ha with rfl | ⟨p₀, m₀, hm₀, hPrefix₀, rfl⟩
        · omega
        · rcases Nat.lt_trichotomy p p₀ with h | rfl | h
          · have := marker_behind hm' hPrefix' ⟨m₀, hm₀, hPrefix₀⟩ h
            have := markers_length hm₀
            omega
          · rw [marker_unique hm₀ hm' hPrefix₀ hPrefix'] at hLt
            omega
          · have := marker_behind hm₀ hPrefix₀ ⟨m', hm', hPrefix'⟩ h
            omega
    rcases Nat.lt_or_eq_of_le (Nat.le_of_not_lt hFirst) with h | h
    · have := marker_behind hm hPrefix ⟨m', hm', hPrefix'⟩ h
      omega
    · subst h
      rw [marker_unique hm hm' hPrefix hPrefix']
      omega

theorem reNLoop_cut {t : List UInt8} {fuel a a' s e anchor so eo : Nat} {offset : List Nat}
    (hStart : ScanStart t a) (hLe : a ≤ a') (hStart' : ScanStart t a')
    (hMatch : regexec (t.drop a') = some (s, e)) (hStop : e = (t.drop (a' + e)).length)
    (hMore : regexec (t.drop (a' + e)) ≠ none) (hFuel : (t.drop a).length < fuel) :
    (reNLoop fuel (t.drop a) anchor so eo offset).length <
      offset.length + (positions (t.drop a)).length := by
  induction fuel generalizing a anchor so eo offset with
  | zero => omega
  | succ fuel ih =>
    unfold reNLoop
    rcases regexec_spec (t.drop a) with ⟨-, hUnmarked⟩ | ⟨so', m, hSome, hm,
      hPrefix, hBefore⟩
    · obtain ⟨q, hq, hMarked⟩ :=
        regexec_marked (Option.ne_none_iff_exists'.mpr ⟨_, hMatch⟩)
      refine absurd hMarked ?_
      rw [← Nat.add_sub_cancel' (Nat.le_trans hLe hq), ← List.drop_drop]
      exact hUnmarked _
    · have hPos := markers_length hm
      have hFit := hPrefix.length_le
      rw [List.length_drop, List.length_drop] at hFit
      have hPositions := positions_match hm hPrefix hBefore
      have hNext : a < a' → a + (so' + m.length) ≤ a' := fun hLt =>
        hStart.behind hStart' hLt hm hPrefix hBefore
      simp only [hSome, List.drop_drop]
      split
      · -- the marker behind the cut lies behind this one
        obtain ⟨q, hq, hMarked⟩ := regexec_marked hMore
        have hBehind : a + (so' + m.length) ≤ q := by
          rcases Nat.lt_or_eq_of_le hLe with hLt | rfl
          · have := hNext hLt
            omega
          · rw [hSome] at hMatch
            obtain ⟨rfl, rfl⟩ := Prod.mk.inj (Option.some.inj hMatch)
            exact hq
        have hMem : q - (a + (so' + m.length)) ∈ positions (t.drop (a + (so' + m.length))) := by
          rw [mem_positions, List.drop_drop, Nat.add_sub_cancel' hBehind]
          exact hMarked
        have := List.length_pos_of_mem hMem
        simp only [hPositions, List.length_append, List.length_cons, List.length_map,
          List.length_nil]
        omega
      · rename_i hContinue
        have hLt : a < a' := by
          refine Nat.lt_of_le_of_ne hLe ?_
          rintro rfl
          rw [hSome] at hMatch
          obtain ⟨rfl, rfl⟩ := Prod.mk.inj (Option.some.inj hMatch)
          exact hContinue hStop
        refine Nat.lt_of_lt_of_le (ih (ScanStart.next hm hPrefix) (hNext hLt) ?_) ?_
        · rw [List.length_drop] at hFuel ⊢
          omega
        · simp only [hPositions, List.length_append, List.length_cons, List.length_map,
            List.length_nil]
          omega

/-- `get_ReN` reports the positions of the markers, and the pieces that `get_request` cuts are the
string from the first marker on. -/
structure FindsRequests (buffer : List UInt8) : Prop where
  offsets : getReN buffer = some (positions buffer)
  requests : ∃ request, getRequest buffer = some request ∧
    request.flatten = buffer.drop (upToMarker buffer).length

/-- The scan finds every request exactly when there are fewer than 100 and it is not cut short. -/
theorem finds_requests_iff (buffer : List UInt8) (hNul : 0 ∉ buffer) :
    FindsRequests buffer ↔ (positions buffer).length < 100 ∧ ¬CutShort buffer := by
  constructor
  · rintro ⟨hOffsets, -⟩
    unfold getReN at hOffsets
    simp only [Option.ite_none_right_eq_some, Option.some.injEq] at hOffsets
    obtain ⟨hCount, hLoop⟩ := hOffsets
    refine ⟨hLoop ▸ hCount, ?_⟩
    rintro ⟨a, so, eo, hStart, hMatch, hStop, hMore⟩
    have hShort : (reNLoop (buffer.length + 1) (buffer.drop 0) 0 0 0 []).length <
        0 + (positions (buffer.drop 0)).length :=
      reNLoop_cut (Or.inl rfl) (Nat.zero_le a) hStart hMatch hStop hMore (Nat.lt_succ_self _)
    rw [List.drop_zero, hLoop, Nat.zero_add] at hShort
    exact Nat.lt_irrefl _ hShort
  · rintro ⟨hCount, hCut⟩
    refine ⟨getReN_eq hCut hCount, _, getRequest_eq hNul hCut ?_, ?_⟩
    · rwa [requestsOf_positions_length]
    · have hSplit := congrArg (List.drop (upToMarker buffer).length)
        (upToMarker_append_requestsOf buffer)
      rwa [List.drop_left] at hSplit

/-- `GET /aGET /bc` has two requests. -/
theorem finds_requests_iff_two :
    FindsRequests [71, 69, 84, 32, 47, 97, 71, 69, 84, 32, 47, 98, 99] := by
  refine (finds_requests_iff _ (by decide)).mpr ⟨by decide +kernel, ?_⟩
  have hNone : ∀ a < 13, ∀ q ∈ regexec (List.drop a
      [71, 69, 84, 32, 47, 97, 71, 69, 84, 32, 47, 98, 99]), a + 2 * q.2 = 13 →
      regexec (List.drop (a + q.2) [71, 69, 84, 32, 47, 97, 71, 69, 84, 32, 47, 98, 99]) =
        none := by
    decide +kernel
  rintro ⟨a, so, eo, -, hMatch, hStop, hMore⟩
  rw [List.length_drop] at hStop
  by_cases hEnd : a < 13
  · have hLength : eo = 13 - (a + eo) := hStop
    exact hMore (hNone a hEnd _ hMatch (by omega))
  · rw [List.drop_eq_nil_of_le (by simpa using hEnd)] at hMatch
    cases hMatch

/-- `GET /GET /`: behind the first match as many bytes are left as it has, and the scan stops. -/
theorem get_ReN_stops_early :
    ¬∀ buffer : List UInt8, 0 ∉ buffer → FindsRequests buffer := by
  intro h
  have hOffsets := (h [71, 69, 84, 32, 47, 71, 69, 84, 32, 47] (by decide)).offsets
  exact absurd hOffsets (by decide)

/-! ### Requests of a string that goes on -/

/-- A marker that is not complete yet covers the bytes up to the end of the string. -/
theorem marked_append {s v : List UInt8} (hNot : ¬Marked s) (h : Marked (s ++ v)) :
    ∀ i, ¬Marked (s.drop i) := by
  intro i hMarked
  obtain ⟨m, hm, hPrefix⟩ := h
  cases i with
  | zero => exact hNot hMarked
  | succ i =>
    by_cases hLt : i + 1 < m.length
    · have hLe : i + 1 ≤ s.length := by
        by_contra hGt
        rw [List.drop_eq_nil_of_le (by omega)] at hMarked
        exact not_marked_nil hMarked
      refine not_marked_drop hm hPrefix (Nat.succ_pos i) hLt ?_
      rw [List.drop_append_of_le_length hLe]
      exact hMarked.append v
    · -- the marker ends before the string does
      have hLe : m.length ≤ s.length := by
        by_contra hGt
        rw [List.drop_eq_nil_of_le (by omega)] at hMarked
        exact not_marked_nil hMarked
      exact hNot ⟨m, hm, List.prefix_of_prefix_length_le hPrefix (List.prefix_append s v) hLe⟩

theorem upToMarker_append {s v : List UInt8} (h : ¬Unmarked s) :
    upToMarker (s ++ v) = upToMarker s := by
  induction s with
  | nil => exact absurd (fun i => by simp) h
  | cons c s ih =>
    rw [List.cons_append, upToMarker, upToMarker]
    by_cases hMarked : Marked (c :: s)
    · have hLonger : Marked (c :: (s ++ v)) := hMarked.append v
      rw [if_pos hMarked, if_pos hLonger]
    · by_cases hLonger : Marked (c :: (s ++ v))
      · exact absurd (marked_append hMarked hLonger) h
      · rw [if_neg hMarked, if_neg hLonger, ih]
        intro hUnmarked
        refine h fun i => ?_
        cases i with
        | zero => exact hMarked
        | succ i => exact hUnmarked i

/-- A request that another marker of the string ends is the same in every longer string. -/
theorem requestFrom_append {s v : List UInt8} {i : Nat} (hi : 0 < i) (h : Marked (s.drop i)) :
    requestFrom (s ++ v) = requestFrom s := by
  cases s with
  | nil => simp at h
  | cons c s =>
    obtain ⟨i, rfl⟩ := Nat.exists_eq_succ_of_ne_zero (Nat.pos_iff_ne_zero.mp hi)
    rw [List.cons_append, requestFrom, requestFrom, upToMarker_append fun hUnmarked =>
      hUnmarked i h]

theorem upToMarker_length_le (s : List UInt8) {i : Nat} (h : Marked (s.drop i)) :
    (upToMarker s).length ≤ i := by
  induction s generalizing i with
  | nil => exact Nat.zero_le i
  | cons c s ih =>
    unfold upToMarker
    split
    · exact Nat.zero_le i
    · rename_i hNot
      cases i with
      | zero => exact absurd h hNot
      | succ i => simpa using ih h

theorem requestFrom_length_le (s : List UInt8) {i : Nat} (hi : 0 < i) (h : Marked (s.drop i)) :
    (requestFrom s).length ≤ i := by
  cases s with
  | nil => exact Nat.zero_le i
  | cons c s =>
    obtain ⟨i, rfl⟩ := Nat.exists_eq_succ_of_ne_zero (Nat.pos_iff_ne_zero.mp hi)
    simpa [requestFrom] using upToMarker_length_le s h

theorem requestFrom_of_last {s : List UInt8} {p : Nat} (h : ∀ i > p, ¬Marked (s.drop i)) :
    requestFrom (s.drop p) = s.drop p := by
  cases hDrop : s.drop p with
  | nil => rfl
  | cons c rest =>
    have hUnmarked : Unmarked rest := fun i => by
      have hNext := h (p + (i + 1)) (by omega)
      rwa [← List.drop_drop, hDrop, List.drop_succ_cons] at hNext
    rw [requestFrom, upToMarker_of_unmarked hUnmarked]

theorem exists_last_marker {s : List UInt8} (h : ¬Unmarked s) :
    ∃ p, Marked (s.drop p) ∧ ∀ i > p, ¬Marked (s.drop i) := by
  induction s with
  | nil => exact absurd (fun i => by simp) h
  | cons c s ih =>
    by_cases hRest : Unmarked s
    · refine ⟨0, ?_, fun i hi => ?_⟩
      · by_contra hNot
        refine h fun i => ?_
        cases i with
        | zero => exact hNot
        | succ i => exact hRest i
      · obtain ⟨i, rfl⟩ := Nat.exists_eq_succ_of_ne_zero (Nat.pos_iff_ne_zero.mp hi)
        exact hRest i
    · obtain ⟨p, hMarked, hLast⟩ := ih hRest
      refine ⟨p + 1, hMarked, fun i hi => ?_⟩
      obtain ⟨i, rfl⟩ := Nat.exists_eq_succ_of_ne_zero (Nat.ne_of_gt (Nat.zero_lt_of_lt hi))
      exact hLast i (Nat.lt_of_succ_lt_succ hi)

end Shutter.Stream
