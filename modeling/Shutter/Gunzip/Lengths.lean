import Shutter.Gunzip.Build
import Shutter.Library.Canonical
import Mathlib.Algebra.BigOperators.Ring.List

/-! What a call of `huft_build` makes of the lengths of the codes: tables with an entry for each
pattern, which for a value is that of its canonical code. -/

namespace Shutter.Gunzip

open Shutter.Library

/-! ### Counts -/

section Lengths

theorem foldl_modify_length (b : List Nat) (c : List Nat) :
    (b.foldl (fun c k => c.modify k (· + 1)) c).length = c.length := by
  induction b generalizing c with
  | nil => rfl
  | cons k b ih => exact (ih _).trans (List.length_modify ..)

theorem foldl_modify_getD (b : List Nat) {c : List Nat} {k : Nat} (hk : k < c.length) :
    (b.foldl (fun c k => c.modify k (· + 1)) c).getD k 0 = c.getD k 0 + b.count k := by
  induction b generalizing c with
  | nil => rfl
  | cons j b ih =>
    rw [List.foldl_cons, ih (by rw [List.length_modify]; exact hk), List.count_cons,
      List.getD_eq_getElem?_getD, List.getD_eq_getElem?_getD, List.getElem?_modify,
      List.getElem?_eq_getElem hk]
    by_cases hSame : j = k
    · simp [hSame]
      omega
    · simp [hSame]

theorem counts_length (b : List Nat) : (counts b).length = bmax + 1 :=
  (foldl_modify_length b _).trans List.length_replicate

theorem counts_getD {k : Nat} (b : List Nat) (hk : k ≤ bmax) :
    (counts b).getD k 0 = b.count k := by
  have hZero : (List.replicate (bmax + 1) 0).getD k 0 = 0 := by
    rw [List.getD_eq_getElem?_getD, List.getElem?_replicate]
    split <;> rfl
  rw [counts, foldl_modify_getD b (by rw [List.length_replicate]; omega), hZero, Nat.zero_add]

theorem codeEnd_congr {c c' : List Nat} {g k : Nat}
    (h : ∀ j, 0 < j → j ≤ k → c'.getD j 0 = c.getD j 0) :
    codeEnd c' g k = codeEnd c g k := by
  induction k with
  | zero => rfl
  | succ k ih => rw [codeEnd, codeEnd, ih fun j h0 hj => h j h0 (by omega),
      h (k + 1) (by omega) (by omega)]

theorem codeCount_congr {c c' : List Nat} {k : Nat}
    (h : ∀ j, 0 < j → j ≤ k → c'.getD j 0 = c.getD j 0) :
    codeCount c' k = codeCount c k := by
  induction k with
  | zero => rfl
  | succ k ih =>
    rw [codeCount, codeCount, ih fun j h0 hj => h j h0 (by omega), h (k + 1) (by omega) (by omega)]

theorem codeEnd_none {c : List Nat} {g k : Nat} (h : ∀ j, 0 < j → j ≤ k → c.getD j 0 = 0) :
    codeEnd c g k = 0 := by
  induction k with
  | zero => rfl
  | succ k ih =>
    rw [codeEnd, ih fun j h0 hj => h j h0 (by omega), h (k + 1) (by omega) (by omega), Nat.zero_mul]

theorem codeCount_none {c : List Nat} {k : Nat} (h : ∀ j, 0 < j → j ≤ k → c.getD j 0 = 0) :
    codeCount c k = 0 := by
  induction k with
  | zero => rfl
  | succ k ih =>
    rw [codeCount, ih fun j h0 hj => h j h0 (by omega), h (k + 1) (by omega) (by omega)]

/-- The check of the lengths gives the number of patterns that no code has. -/
theorem leftOver_spec {c : List Nat} {g k n : Nat} (hk : k + n = g) (y : Nat)
    (hy : y * 2 ^ (g - (k + 1)) + codeEnd c g k = 2 ^ g) {rest : Int}
    (h : leftOver c (List.range' (k + 1) n) y = some rest) (hn : 0 < n) :
    0 ≤ rest ∧ rest.toNat + codeEnd c g g = 2 ^ g := by
  induction n generalizing k y with
  | zero => omega
  | succ n ih =>
    have hEnd : codeEnd c g (k + 1) =
        codeEnd c g k + c.getD (k + 1) 0 * 2 ^ (g - (k + 1)) := rfl
    by_cases hLast : n = 0
    · subst hLast
      subst hk
      have hCheck : (if (y : Int) - c.getD (k + 1) 0 < 0 then none
        else some ((y : Int) - c.getD (k + 1) 0)) = some rest := h
      split at hCheck
      · cases hCheck
      · obtain rfl := Option.some.inj hCheck
        have hSelf : k + (0 + 1) - (k + 1) = 0 := Nat.sub_self _
        rw [hSelf, Nat.pow_zero, Nat.mul_one] at hy hEnd
        have hAll : codeEnd c (k + (0 + 1)) (k + (0 + 1)) = _ := hEnd
        rw [hAll]
        omega
    · obtain ⟨n, rfl⟩ : ∃ i, n = i + 1 := ⟨n - 1, by omega⟩
      have hHalf : 2 ^ (g - (k + 1)) = 2 * 2 ^ (g - (k + 2)) := by
        rw [← Nat.pow_succ']
        congr 1
        omega
      have hCheck : (if (y : Int) - c.getD (k + 1) 0 < 0 then none
        else leftOver c (List.range' (k + 2) (n + 1)) (((y : Int) - c.getD (k + 1) 0) * 2)) =
          some rest := h
      split at hCheck
      · cases hCheck
      · have hBelow : c.getD (k + 1) 0 ≤ y := by omega
        refine ih (k := k + 1) (by omega) ((y - c.getD (k + 1) 0) * 2) ?_ ?_ (Nat.succ_pos n)
        · have hScaled := Nat.mul_le_mul_right (2 ^ (g - (k + 1))) hBelow
          rw [hEnd, Nat.mul_assoc, ← hHalf, Nat.sub_mul]
          omega
        · push_cast [hBelow]
          exact hCheck

theorem find_last {p : Nat → Bool} {n : Nat} (h : ∃ i, 0 < i ∧ i ≤ n ∧ p i = true) :
    ∃ g, (List.range' 1 n).reverse.find? p = some g ∧ 0 < g ∧ g ≤ n ∧ p g = true ∧
      ∀ i, g < i → i ≤ n → p i = false := by
  induction n with
  | zero =>
    obtain ⟨i, hPos, hLe, -⟩ := h
    omega
  | succ n ih =>
    have hLast : (List.range' 1 (n + 1)).reverse = (n + 1) :: (List.range' 1 n).reverse := by
      rw [List.range'_1_concat, List.reverse_concat, Nat.add_comm 1 n]
    rw [hLast]
    by_cases hHere : p (n + 1) = true
    · exact ⟨n + 1, List.find?_cons_of_pos hHere, Nat.succ_pos n, Nat.le_refl _, hHere,
        fun i hLt hLe => by omega⟩
    · obtain ⟨i, hPos, hLe, hp⟩ := h
      have hLt : i ≠ n + 1 := fun hEq => hHere (hEq ▸ hp)
      obtain ⟨g, hFind, hg, hLe', hpg, hAbove⟩ := ih ⟨i, hPos, by omega, hp⟩
      refine ⟨g, (List.find?_cons_of_neg hHere).trans hFind, hg, Nat.le_succ_of_le hLe', hpg,
        fun i hLt' hLe => ?_⟩
      by_cases hEq : i = n + 1
      · exact hEq ▸ Bool.eq_false_iff.mpr hHere
      · exact hAbove i hLt' (by omega)

theorem find_first {p : Nat → Bool} {n : Nat} (h : ∃ i, 0 < i ∧ i ≤ n ∧ p i = true) :
    ∃ j, (List.range' 1 n).find? p = some j ∧ 0 < j ∧ p j = true ∧
      ∀ i, 0 < i → i < j → p i = false := by
  obtain ⟨i, hPos, hLe, hp⟩ := h
  have hSome : ((List.range' 1 n).find? p).isSome := by
    rw [List.find?_isSome]
    exact ⟨i, List.mem_range'_1.mpr ⟨hPos, by omega⟩, hp⟩
  obtain ⟨j, hj⟩ := Option.isSome_iff_exists.mp hSome
  obtain ⟨hpj, hMem, hBefore⟩ := List.find?_range'_eq_some.mp hj
  exact ⟨j, hj, (List.mem_range'_1.mp hMem).1, hpj,
    fun i h0 hi => by simpa using hBefore i h0 hi⟩

/-- The state of `huft_build` before its main loop. -/
def Building.start (v : List Nat) : Building :=
  ⟨0, v, 0, List.replicate bmax 0, List.replicate (bmax + 1) 0, []⟩

/-- The shortest length `j` and the longest `g`. -/
structure Spans (b : List Nat) (j g : Nat) : Prop where
  pos : 0 < j
  le : j ≤ g
  most : g ≤ bmax
  first : b.count j ≠ 0
  last : b.count g ≠ 0
  shorter : ∀ i, 0 < i → i < j → b.count i = 0
  longer : ∀ i, g < i → i ≤ bmax → b.count i = 0

theorem Spans.le_most {b : List Nat} {j g : Nat} (h : Spans b j g)
    (hLengths : ∀ k ∈ b, k ≤ bmax) :
    ∀ k ∈ b, k ≤ g := fun k hk => Nat.le_of_not_lt fun hLong =>
  absurd (h.longer k hLong (hLengths k hk)) (Nat.ne_of_gt (List.count_pos_iff.mpr hk))

/-- The number `y` of patterns that no code has, and the end of the main loop. -/
structure Building.Of (stale : Nat) (b : List Nat) (s : Nat) (d e : Option (List Nat)) (m j g : Nat)
    (y : Int) (built : Building) : Prop extends Spans b j g where
  rest : leftOver (counts b) (List.range' j (g + 1 - j)) (2 ^ j) = some y
  run : addLengths ((counts b).modify g (· + y.toNat)) g (min (max m j) g) s d e
    (List.range' j (g + 1 - j)) (Building.start (values b stale)) = some built

/-- A call with lengths from `j` to `g`. -/
theorem exists_spans {b : List Nat} (hLengths : ∀ k ∈ b, k ≤ bmax)
    (hUsed : ∃ k ∈ b, k ≠ 0) :
    ∃ j g, Spans b j g ∧ ∀ stale s d e m, huftBuild stale b s d e m =
      match leftOver (counts b) (List.range' j (g + 1 - j)) (2 ^ j) with
      | none => ⟨2, none, min (max m j) g⟩
      | some y =>
        match addLengths ((counts b).modify g (· + y.toNat)) g (min (max m j) g) s d e
          (List.range' j (g + 1 - j)) (Building.start (values b stale)) with
        | none => ⟨2, none, min (max m j) g⟩
        | some built =>
            ⟨if y ≠ 0 ∧ g ≠ 1 then 1 else 0, some (some ⟨built.tables, 0, 0⟩),
            min (max m j) g⟩ := by
  obtain ⟨i, hMem, hNe⟩ := hUsed
  have hCode : ∃ i, 0 < i ∧ i ≤ bmax ∧ decide ((counts b).getD i 0 ≠ 0) = true := by
    refine ⟨i, Nat.pos_of_ne_zero hNe, hLengths i hMem, decide_eq_true ?_⟩
    rw [counts_getD b (hLengths i hMem)]
    exact Nat.ne_of_gt (List.count_pos_iff.mpr hMem)
  obtain ⟨j, hFirst, hPos, hpj, hShorter⟩ := find_first hCode
  obtain ⟨g, hLast, hg, hMax, hpg, hLonger⟩ := find_last hCode
  have hLe : j ≤ g := Nat.le_of_not_lt fun hLt =>
    absurd (hpg.symm.trans (hShorter g hg hLt)) nofun
  refine ⟨j, g, ⟨hPos, hLe, hMax, ?_, ?_, fun i h0 hi => ?_, fun i hi hMost => ?_⟩,
    fun stale s d e m => ?_⟩
  · rw [← counts_getD b (Nat.le_trans hLe hMax)]
    exact of_decide_eq_true hpj
  · rw [← counts_getD b hMax]
    exact of_decide_eq_true hpg
  · rw [← counts_getD b (by omega)]
    simpa using hShorter i h0 hi
  · rw [← counts_getD b hMost]
    simpa using hLonger i hi hMost
  · have hSome : (counts b).getD 0 0 ≠ b.length := by
      rw [counts_getD b (Nat.zero_le _)]
      exact fun hAll => hNe (List.count_eq_length.mp hAll i hMem).symm
    unfold huftBuild
    simp only [if_neg hSome, hFirst, hLast, Option.getD_some]
    rfl

/-- What a call has done that gives a table. -/
theorem huftBuild_cases {stale s m : Nat} {b : List Nat} {d e : Option (List Nat)} {r l : Nat}
    {p : HuftPtr} (hLengths : ∀ k ∈ b, k ≤ bmax)
    (h : huftBuild stale b s d e m = ⟨r, some (some p), l⟩) :
    ∃ j g y built, Building.Of stale b s d e m j g y built ∧ l = min (max m j) g ∧
      p = ⟨built.tables, 0, 0⟩ ∧ r = if y ≠ 0 ∧ g ≠ 1 then 1 else 0 := by
  have hUsed : ∃ k ∈ b, k ≠ 0 := by
    by_contra hNone
    push Not at hNone
    have hAll : (counts b).getD 0 0 = b.length := by
      rw [counts_getD b (Nat.zero_le _), List.count_eq_length]
      exact fun k hk => (hNone k hk).symm
    unfold huftBuild at h
    simp only [if_pos hAll] at h
    cases h
  obtain ⟨j, g, hSpans, hEq⟩ := exists_spans hLengths hUsed
  rw [hEq] at h
  split at h
  · cases h
  · next y hRest =>
    split at h
    · cases h
    · next built hRun =>
      obtain ⟨rfl, hp, rfl⟩ := Built.mk.inj h
      exact ⟨j, g, y, built, ⟨hSpans, hRest, hRun⟩, rfl,
        (Option.some.inj (Option.some.inj hp)).symm, rfl⟩

theorem countP_succ (b : List Nat) (k : Nat) :
    b.countP (fun x => decide (0 < x ∧ x ≤ k + 1)) =
      b.countP (fun x => decide (0 < x ∧ x ≤ k)) + b.count (k + 1) := by
  induction b with
  | nil => rfl
  | cons x b ih =>
    rw [List.countP_cons, List.countP_cons, List.count_cons, ih]
    by_cases hHere : x = k + 1
    · simp [hHere]
      omega
    · have hIff : (0 < x ∧ x ≤ k + 1) ↔ (0 < x ∧ x ≤ k) := by omega
      simp [hHere, hIff]
      omega

theorem codeCount_le {c b : List Nat} {k : Nat}
    (h : ∀ i, 0 < i → i ≤ k → c.getD i 0 = b.count i) :
    codeCount c k ≤ b.length := by
  have hCount : codeCount c k = b.countP fun x => decide (0 < x ∧ x ≤ k) := by
    induction k with
    | zero =>
      refine (List.countP_eq_zero.mpr fun x _ => ?_).symm
      simp
      omega
    | succ k ih =>
      rw [codeCount, ih fun i h0 hi => h i h0 (by omega),
        h (k + 1) (by omega) (by omega), countP_succ]
  exact hCount ▸ List.countP_le_length

theorem codeCount_eq {c b : List Nat} {k : Nat}
    (h : ∀ i, 0 < i → i ≤ k → c.getD i 0 = b.count i) :
    codeCount c k = (inOrder k b).length := by
  rw [inOrder_length]
  induction k with
  | zero => rfl
  | succ k ih =>
    rw [codeCount, ih fun i h0 hi => h i h0 (by omega), h (k + 1) (by omega) (by omega),
      List.range'_1_concat, List.map_append, List.sum_append, Nat.add_comm 1 k]
    simp

/-- The shorter codes end where the first of the next length starts. -/
theorem codeEnd_eq {c b : List Nat} {g k : Nat} (hk : k < g)
    (h : ∀ i, 0 < i → i ≤ k → c.getD i 0 = b.count i) :
    codeEnd c g k = firstCode b (k + 1) * 2 ^ (g - (k + 1)) := by
  induction k with
  | zero => simp [codeEnd, firstCode]
  | succ k ih =>
    have hHalf : 2 ^ (g - (k + 1)) = 2 * 2 ^ (g - (k + 2)) := by
      rw [← Nat.pow_succ']
      congr 1
      omega
    have hFirst : firstCode b (k + 2) = 2 * (firstCode b (k + 1) + b.count (k + 1)) := by
      rw [firstCode, if_neg (Nat.succ_ne_zero k)]
    rw [codeEnd, ih (by omega) fun i h0 hi => h i h0 (by omega),
      h (k + 1) (by omega) (by omega), hFirst,
      hHalf]
    ring

/-- The length and the values at a position. -/
def codeAt (c : List Nat) (g : Nat) (v : List Nat) (P : Nat) : Nat × List Nat :=
  match (List.range g).find? fun k => P < codeEnd c g (k + 1) with
  | some k => (k + 1, v.drop (codeCount c k + (P - codeEnd c g k) / 2 ^ (g - (k + 1))))
  | none => (0, [])

theorem codeAt_inOrder {J : Job} {v : List Nat} (h : J.codeAt = codeAt J.c J.g v) :
    J.InOrder v := by
  intro k m hk hm P hLow hHigh
  have hEnd : P < codeEnd J.c J.g (k + 1) := by
    have hMost : (m + 1) * 2 ^ (J.g - (k + 1)) ≤ J.c.getD (k + 1) 0 * 2 ^ (J.g - (k + 1)) :=
      Nat.mul_le_mul_right _ hm
    rw [codeEnd]
    omega
  have hFind : ((List.range J.g).find? fun k => P < codeEnd J.c J.g (k + 1)) = some k := by
    rw [List.find?_range_eq_some]
    refine ⟨decide_eq_true hEnd, List.mem_range.mpr hk, fun i hi => ?_⟩
    have hMono : codeEnd J.c J.g (i + 1) ≤ codeEnd J.c J.g k := codeEnd_mono hi
    have hNot : ¬P < codeEnd J.c J.g (i + 1) := by omega
    simp [hNot]
  have hIndex : (P - codeEnd J.c J.g k) / 2 ^ (J.g - (k + 1)) = m := by
    refine Nat.div_eq_of_lt_le ?_ ?_
    · omega
    · omega
  rw [h, codeAt, hFind]
  simp only [hIndex]

/-- What a call of `huft_build` works on. -/
def callJob (b : List Nat) (s : Nat) (d e : Option (List Nat)) (g l : Nat) (y : Int)
    (v : List Nat) :
    Job :=
  let c := (counts b).modify g (· + y.toNat)
  ⟨c, g, l, s, d, e, codeAt c g v⟩

end Lengths

namespace Building.Of

variable {stale s m j g : Nat} {b : List Nat} {d e : Option (List Nat)} {y : Int} {built : Building}

theorem modify_getD (b : List Nat) (g : Nat) (y : Int) {i : Nat} (hi : i ≤ bmax) :
    ((counts b).modify g (· + y.toNat)).getD i 0 = b.count i + if i = g then y.toNat else 0 := by
  have hLength : i < (counts b).length := by
    rw [counts_length]
    omega
  have hCount : (counts b)[i] = b.count i := by
    rw [← counts_getD b hi, List.getD_eq_getElem?_getD, List.getElem?_eq_getElem hLength]
    rfl
  rw [List.getD_eq_getElem?_getD, List.getElem?_modify, List.getElem?_eq_getElem hLength]
  by_cases hSame : g = i
  · simp [hSame, hCount]
  · simp [hSame, Ne.symm hSame, hCount]

theorem below (h : Building.Of stale b s d e m j g y built) {i : Nat} (hi : i < g) :
    ((counts b).modify g (· + y.toNat)).getD i 0 = b.count i := by
  have := h.most
  rw [modify_getD b _ y (by omega), if_neg (by omega), Nat.add_zero]

theorem none_before (h : Building.Of stale b s d e m j g y built) {c : List Nat}
    (hc : ∀ i < j, c.getD i 0 = b.count i) :
    codeEnd c g (j - 1) = 0 ∧ codeCount c (j - 1) = 0 := by
  have hPos := h.pos
  have hNone : ∀ i, 0 < i → i ≤ j - 1 → c.getD i 0 = 0 := fun i h0 hi => by
    rw [hc i (by omega), h.shorter i h0 (by omega)]
  exact ⟨codeEnd_none hNone, codeCount_none hNone⟩

theorem left (h : Building.Of stale b s d e m j g y built) :
    y.toNat + codeEnd (counts b) g g = 2 ^ g := by
  have hPos := h.pos
  have hLe := h.le
  have hMax := h.most
  obtain ⟨k, rfl⟩ : ∃ k, j = k + 1 := ⟨j - 1, by omega⟩
  have hNone := (h.none_before fun i hi => counts_getD b (by omega)).1
  rw [Nat.add_sub_cancel] at hNone
  have hRest := h.rest
  refine (leftOver_spec (k := k) (n := g + 1 - (k + 1)) (by omega) (2 ^ (k + 1)) ?_ ?_ (by omega)).2
  · rw [hNone, ← Nat.pow_add, Nat.add_zero, Nat.add_sub_cancel' hLe]
  · exact_mod_cast hRest

theorem full (h : Building.Of stale b s d e m j g y built) :
    codeEnd ((counts b).modify g (· + y.toNat)) g g = 2 ^ g := by
  have hMax := h.most
  have hPos := h.pos
  have hLe := h.le
  obtain ⟨k, rfl⟩ : ∃ k, g = k + 1 := ⟨g - 1, by omega⟩
  have hSame : codeEnd ((counts b).modify (k + 1) (· + y.toNat)) (k + 1) k =
      codeEnd (counts b) (k + 1) k := codeEnd_congr fun i _ hi => by
    rw [h.below (by omega), counts_getD b (by omega)]
  rw [← h.left, codeEnd, codeEnd, hSame, modify_getD b _ y hMax, counts_getD b hMax, if_pos rfl,
    Nat.sub_self, Nat.pow_zero]
  omega

theorem complete (h : Building.Of stale b s d e m j g y built)
    (hRoom : (∀ k ∈ b, k ≤ 2 * min (max m j) g) ∨ (y ≠ 0 → g = 1) ∧
    b.length < 2 ^ min (max m j) g) :
    Complete ((counts b).modify g (· + y.toNat)) g (min (max m j) g) := by
  have hPos := h.pos
  have hLe := h.le
  have hMax := h.most
  refine ⟨by omega, by omega, hMax, h.full, ?_, ⟨j, hPos, by omega, ?_⟩, ?_⟩
  · rw [modify_getD b _ y hMax]
    have := h.last
    omega
  · rw [modify_getD b _ y (by omega)]
    have := h.first
    omega
  · rcases hRoom with hTwo | ⟨hAll, hFew⟩
    · exact Or.inl (hTwo g (List.count_pos_iff.mp (Nat.pos_of_ne_zero h.last)))
    · by_cases hZero : y = 0
      · refine Or.inr (Nat.lt_of_le_of_lt (codeCount_le fun i _ hi => ?_) hFew)
        rw [modify_getD b _ y (by omega), hZero]
        simp
      · have := hAll hZero
        omega

/-- The number of bits that is asked for is enough. -/
theorem room (h : Building.Of stale b s d e m j g y built) (hLengths : ∀ k ∈ b, k ≤ bmax)
    (hRoom : (∀ k ∈ b, k ≤ 2 * m) ∨ (if y ≠ 0 ∧ g ≠ 1 then 1 else 0) = 0 ∧
    b.length < 2 ^ m) :
    (∀ k ∈ b, k ≤ 2 * min (max m j) g) ∨
      (y ≠ 0 → g = 1) ∧ b.length < 2 ^ min (max m j) g := by
  have hMost := h.toSpans.le_most hLengths
  by_cases hAll : g ≤ max m j
  · exact Or.inl fun k hk => by
      have := hMost k hk
      omega
  · have hAsked : m ≤ min (max m j) g := by omega
    refine hRoom.imp (fun hTwo k hk => ?_) fun ⟨hCode, hFew⟩ => ⟨fun hSome => ?_, ?_⟩
    · have := hTwo k hk
      omega
    · by_contra hOne
      rw [if_pos ⟨hSome, hOne⟩] at hCode
      exact absurd hCode Nat.one_ne_zero
    · exact Nat.lt_of_lt_of_le hFew (Nat.pow_le_pow_right Nat.two_pos hAsked)

/-- Before the main loop there are no tables. -/
theorem between (h : Building.Of stale b s d e m j g y built) (v : List Nat) :
    (callJob b s d e g (min (max m j) g) y v).Between 0 j (Building.start v) := by
  refine ⟨fun _ => ⟨0, 0, 0⟩, ⟨nofun, nofun, nofun, nofun⟩, fun _ => ?_, nofun⟩
  refine ⟨⟨nofun, nofun, nofun, nofun⟩,
    ⟨List.length_replicate, List.length_replicate, rfl, ?_,
    Nat.zero_le _, nofun, nofun, nofun, nofun, nofun, nofun, nofun, Nat.dvd_zero _⟩, nofun, ?_⟩
  · exact (reverseBits_zero _).symm
  · rw [Building.start, Nat.zero_sub, Nat.mul_zero]
    exact h.pos

theorem length_le (h : Building.Of stale b s d e m j g y built) {v k : Nat}
    (hLengths : ∀ k ∈ b, k ≤ bmax) (hHere : b[v]? = some (k + 1)) : k < g := by
  have hMem : k + 1 ∈ b := List.mem_of_getElem? hHere
  by_contra hLong
  exact absurd (h.longer (k + 1) (by omega) (hLengths _ hMem))
    (Nat.ne_of_gt (List.count_pos_iff.mpr hMem))

/-- The values of the same length before a value are fewer than those of the length. -/
theorem count_lt (b : List Nat) (g : Nat) (y : Int) {v k : Nat} (hk : k < bmax)
    (hHere : b[v]? = some (k + 1)) :
    (b.take v).count (k + 1) < ((counts b).modify g (· + y.toNat)).getD (k + 1) 0 := by
  have hTaken : (b.take (v + 1)).count (k + 1) = (b.take v).count (k + 1) + 1 := by
    rw [List.take_add_one, hHere, List.count_append]
    simp
  have hMost : (b.take (v + 1)).count (k + 1) ≤ b.count (k + 1) :=
    (List.take_sublist (v + 1) b).count_le _
  rw [modify_getD b g y (show k + 1 ≤ bmax from hk)]
  omega

/-- The positions of a value are those of its code. -/
theorem codeAt_value (h : Building.Of stale b s d e m j g y built)
    (hLengths : ∀ k ∈ b, k ≤ bmax) {v k l : Nat} (hv : v < b.length)
    (hk : codeLength b v = k + 1) :
    codeOf b v < 2 ^ (k + 1) ∧ ∃ rest, ∀ P, P / 2 ^ (g - (k + 1)) = codeOf b v →
      (callJob b s d e g l y (values b stale)).codeAt P = (k + 1, v :: rest) := by
  have hMax := h.most
  have hHere : b[v]? = some (k + 1) := by
    rw [codeLength, List.getElem?_eq_getElem hv] at hk
    rw [List.getElem?_eq_getElem hv, ← hk]
    rfl
  have hkg := h.length_le hLengths hHere
  have hBefore : ∀ i, 0 < i → i ≤ k →
    ((counts b).modify g (· + y.toNat)).getD i 0 = b.count i :=
    fun i _ hi => h.below (by omega)
  obtain ⟨rest, hRest⟩ := inOrder_drop hv hk (show k < bmax by omega)
  rw [← codeCount_eq hBefore] at hRest
  have hOrder : (callJob b s d e g l y (values b stale)).InOrder (values b stale) :=
    codeAt_inOrder rfl
  have hFrom : codeEnd ((counts b).modify g (· + y.toNat)) g k +
      (b.take v).count (k + 1) * 2 ^ (g - (k + 1)) = codeOf b v * 2 ^ (g - (k + 1)) := by
    rw [codeEnd_eq hkg hBefore, codeOf, hk, Nat.add_mul]
  have hPos := Nat.two_pow_pos (g - (k + 1))
  have hIndex := count_lt b g y (show k < bmax by omega) hHere
  have hSmall : codeOf b v < 2 ^ (k + 1) := by
    have hEnd : codeEnd ((counts b).modify g (· + y.toNat)) g (k + 1) ≤ 2 ^ g :=
      h.full ▸ codeEnd_mono hkg
    have hMore := Nat.mul_le_mul_right (2 ^ (g - (k + 1))) (Nat.succ_le_of_lt hIndex)
    rw [codeEnd] at hEnd
    rw [Nat.succ_mul] at hMore
    have hLt : codeOf b v * 2 ^ (g - (k + 1)) < 2 ^ (k + 1) * 2 ^ (g - (k + 1)) := by
      rw [← Nat.pow_add, Nat.add_sub_cancel' hkg]
      omega
    exact Nat.lt_of_mul_lt_mul_right hLt
  refine ⟨hSmall, rest ++ List.replicate (b.count 0) stale, fun P hP => ?_⟩
  rw [Nat.div_eq_iff (Nat.two_pow_pos _)] at hP
  rw [hOrder k _ hkg hIndex P]
  · refine Prod.ext rfl ?_
    have hDrop : codeCount ((counts b).modify g (· + y.toNat)) k + (b.take v).count (k + 1) ≤
        (inOrder bmax b).length := by
      by_contra hFar
      rw [List.drop_eq_nil_of_le (by omega)] at hRest
      cases hRest
    show (inOrder bmax b ++ _).drop (codeCount ((counts b).modify g (· + y.toNat)) k + _) = _
    rw [List.drop_append_of_le_length hDrop, hRest]
    rfl
  · show codeEnd ((counts b).modify g (· + y.toNat)) g k + _ ≤ P
    rw [show (callJob b s d e g l y (values b stale)).g = g from rfl, hFrom]
    exact hP.1
  · show P < codeEnd ((counts b).modify g (· + y.toNat)) g k + _
    rw [show (callJob b s d e g l y (values b stale)).g = g from rfl, Nat.succ_mul,
      ← Nat.add_assoc, hFrom]
    omega

end Building.Of

/-- What a call has made: tables with an entry for each position, where a value has those of its
code. -/
structure Job.Decodes (J : Job) (b : List Nat) (place : Nat → Place)
    (tables : Tables) : Prop where
  pos : 0 < J.l
  le : J.l ≤ J.g
  max : J.g ≤ bmax
  filled : J.Filled place (2 ^ J.g) tables
  some_table : 0 < tables.length
  value : ∀ v < b.length, 0 < codeLength b v → codeLength b v ≤ J.g ∧
    codeOf b v < 2 ^ codeLength b v ∧ ∃ rest, ∀ P, P / 2 ^ (J.g - codeLength b v) =
      codeOf b v →
      J.codeAt P = (codeLength b v, v :: rest)

theorem huftBuild_decodes {stale s m : Nat} {b : List Nat} {d e : Option (List Nat)} {r l : Nat}
    {p : HuftPtr} (hLengths : ∀ k ∈ b, k ≤ bmax)
    (h : huftBuild stale b s d e m = ⟨r, some (some p), l⟩)
    (hRoom : (∀ k ∈ b, k ≤ 2 * m) ∨ r = 0 ∧ b.length < 2 ^ m) :
    ∃ (J : Job) (place : Nat → Place), J.l = l ∧ J.s = s ∧ J.d = d ∧ J.e = e ∧
      J.Decodes b place p.tables ∧ p = ⟨p.tables, 0, 0⟩ ∧
        ((∀ k ∈ b, k ≤ m) → J.g ≤ J.l) := by
  obtain ⟨j, g, y, built, hOf, rfl, rfl, rfl⟩ := huftBuild_cases hLengths h
  have hPos := hOf.pos
  have hLe := hOf.le
  have hC := hOf.complete (hOf.room hLengths hRoom)
  let J := callJob b s d e g (min (max m j) g) y (values b stale)
  obtain ⟨i, rfl⟩ : ∃ i, j = i + 1 := ⟨j - 1, by omega⟩
  obtain ⟨hEnd, hCount⟩ := hOf.none_before fun i hi => hOf.below (by omega)
  rw [Nat.add_sub_cancel] at hEnd hCount
  have hStart : J.Between (codeEnd J.c J.g i) (i + 1) (Building.start (values b stale)) :=
    hEnd.symm ▸ hOf.between _
  have hFirst : (Building.start (values b stale)).p = (values b stale).drop (codeCount J.c i) := by
    rw [show codeCount J.c i = 0 from hCount]
    rfl
  have hRun := hOf.run
  rw [show g + 1 - (i + 1) = g - i by omega] at hRun
  obtain ⟨place, hFilled, -, hSome⟩ := addLengths_spec (J := J) hC (codeAt_inOrder rfl)
    (show i + (g - i) = g by omega) hStart hFirst hRun
  refine ⟨J, place, rfl, rfl, rfl, rfl,
    ⟨hC.pos, hC.le, hC.max, hFilled, hSome (Nat.two_pow_pos _),
    fun v hv hCode => ?_⟩, rfl, fun hOne => ?_⟩
  rotate_left
  · have hLast := hOne g (List.count_pos_iff.mp (Nat.pos_of_ne_zero hOf.last))
    show g ≤ min (max m (i + 1)) g
    omega
  obtain ⟨k, hk⟩ : ∃ k, codeLength b v = k + 1 := ⟨codeLength b v - 1, by omega⟩
  obtain ⟨hSmall, rest, hValue⟩ := hOf.codeAt_value (l := min (max m (i + 1)) g) hLengths hv hk
  have hHere : b[v]? = some (k + 1) := by
    rw [codeLength, List.getElem?_eq_getElem hv] at hk
    rw [List.getElem?_eq_getElem hv, ← hk]
    rfl
  rw [hk]
  exact ⟨hOf.length_le hLengths hHere, hSmall, rest, hValue⟩

/-! ### Sets of lengths that have tables -/

/-- The values from `v` on have an entry. -/
def Enters (s : Nat) (d e : Option (List Nat)) (v : List Nat) : Prop :=
  ∀ n, (entry s d e n v).isSome

section Enters

variable {c : List Nat} {g l n k a : Nat} {d e : Option (List Nat)} {s : Building}

theorem makeTables_p (c : List Nat) (g l k a fuel : Nat) (s : Building) :
    (makeTables c g l k a fuel s).p = s.p := by
  induction fuel generalizing s with
  | zero => rfl
  | succ fuel ih =>
    rw [makeTables_succ]
    split
    · exact ih _
    · rfl

theorem addCode_some (h : Enters n d e s.p) :
    ∃ s', addCode c g l n d e k a s = some s' ∧ s'.p = s.p.tail := by
  obtain ⟨r, hr⟩ := Option.isSome_iff_exists.mp (h (k - (makeTables c g l k a bmax s).w l))
  refine ⟨backUp l bmax (putCode l k r (makeTables c g l k a bmax s)), ?_, ?_⟩
  · rw [addCode_eq]
    simp only [makeTables_p, hr, Option.map_some]
  · rw [(backUp_tables ..).2]
    exact congrArg List.tail (makeTables_p c g l k a bmax s)

theorem addCodes_some (h : ∀ i < a, Enters n d e (s.p.drop i)) :
    ∃ s', addCodes c g l n d e k a s = some s' ∧ s'.p = s.p.drop a := by
  induction a generalizing s with
  | zero => exact ⟨s, rfl, rfl⟩
  | succ a ih =>
    obtain ⟨t, hFirst, ht⟩ := addCode_some (c := c) (g := g) (l := l) (k := k) (a := a)
      (h 0 (Nat.succ_pos a))
    have hTail : ∀ i, t.p.drop i = s.p.drop (i + 1) := fun i => by
      rw [ht, List.drop_tail]
    obtain ⟨s', hRest, hs'⟩ := ih (s := t) fun i hi => by
      rw [hTail]
      exact h (i + 1) (Nat.succ_lt_succ hi)
    refine ⟨s', ?_, hs'.trans (hTail a)⟩
    exact Option.bind_eq_some_iff.mpr ⟨t, hFirst, hRest⟩

theorem addLengths_some {m : Nat}
    (h : ∀ i, codeCount c k + i < codeCount c (k + m) → Enters n d e (s.p.drop i)) :
    ∃ s', addLengths c g l n d e (List.range' (k + 1) m) s = some s' := by
  induction m generalizing k s with
  | zero => exact ⟨s, rfl⟩
  | succ m ih =>
    have hNext : codeCount c (k + 1) = codeCount c k + c.getD (k + 1) 0 := rfl
    have hShift : k + 1 + m = k + (m + 1) := by omega
    have hMono : codeCount c (k + 1) ≤ codeCount c (k + (m + 1)) := codeCount_mono (by omega)
    obtain ⟨t, hFirst, ht⟩ := addCodes_some (c := c) (g := g) (l := l) (k := k + 1)
      (a := c.getD (k + 1) 0) fun i hi => h i (by omega)
    obtain ⟨s', hRest⟩ := ih (k := k + 1) (s := t) fun i hi => by
      rw [ht, List.drop_drop]
      exact h _ (by rw [hShift] at hi; omega)
    exact ⟨s', Option.bind_eq_some_iff.mpr ⟨t, hFirst, hRest⟩⟩

theorem leftOver_some {k m y : Nat} (hk : k + m = g)
    (hy : y * 2 ^ (g - (k + 1)) + codeEnd c g k = 2 ^ g) (hm : 0 < m)
    (hFit : codeEnd c g g ≤ 2 ^ g) : ∃ rest, leftOver c (List.range' (k + 1) m) y =
    some rest := by
  induction m generalizing k y with
  | zero => omega
  | succ m ih =>
    have hEnd : codeEnd c g (k + 1) =
        codeEnd c g k + c.getD (k + 1) 0 * 2 ^ (g - (k + 1)) := rfl
    have hMono : codeEnd c g (k + 1) ≤ codeEnd c g g := codeEnd_mono (by omega)
    have hBelow : c.getD (k + 1) 0 ≤ y :=
      Nat.le_of_mul_le_mul_right (by omega) (Nat.two_pow_pos (g - (k + 1)))
    have hNot : ¬(y : Int) - c.getD (k + 1) 0 < 0 := by omega
    by_cases hLast : m = 0
    · subst hLast
      exact ⟨_, if_neg hNot⟩
    · obtain ⟨m, rfl⟩ : ∃ i, m = i + 1 := ⟨m - 1, by omega⟩
      have hHalf : 2 ^ (g - (k + 1)) = 2 * 2 ^ (g - (k + 2)) := by
        rw [← Nat.pow_succ']
        congr 1
        omega
      obtain ⟨rest, hRest⟩ := ih (k := k + 1) (y := (y - c.getD (k + 1) 0) * 2) (by omega) (by
        have hScaled := Nat.mul_le_mul_right (2 ^ (g - (k + 1))) hBelow
        rw [hEnd, Nat.mul_assoc, ← hHalf, Nat.sub_mul]
        omega) (Nat.succ_pos m)
      refine ⟨rest, (if_neg hNot).trans ?_⟩
      push_cast [hBelow] at hRest
      exact hRest

end Enters

section Kraft

variable {b c : List Nat} {g k : Nat}

theorem sum_succ (b : List Nat) (g k : Nat) :
    (b.map fun x => if 0 < x ∧ x ≤ k + 1 then 2 ^ (g - x) else 0).sum =
      (b.map fun x => if 0 < x ∧ x ≤ k then 2 ^ (g - x) else 0).sum +
        b.count (k + 1) * 2 ^ (g - (k + 1)) := by
  induction b with
  | nil => simp
  | cons x b ih =>
    rw [List.map_cons, List.sum_cons, ih, List.map_cons, List.sum_cons,
      List.count_cons, Nat.add_mul]
    by_cases hHere : x = k + 1
    · subst hHere
      simp
      omega
    · have hIff : (0 < x ∧ x ≤ k + 1) ↔ (0 < x ∧ x ≤ k) := by omega
      simp [hHere, hIff]
      omega

theorem codeEnd_sum (h : ∀ i, 0 < i → i ≤ k → c.getD i 0 = b.count i) :
    codeEnd c g k = (b.map fun x => if 0 < x ∧ x ≤ k then 2 ^ (g - x) else 0).sum := by
  induction k with
  | zero =>
    refine (List.sum_eq_zero fun x hx => ?_).symm
    obtain ⟨y, -, rfl⟩ := List.mem_map.mp hx
    exact if_neg (by omega)
  | succ k ih =>
    rw [codeEnd, ih fun i h0 hi => h i h0 (by omega), h (k + 1) (by omega) (by omega), sum_succ]

/-- The patterns of `bmax` bits, from those of the longest code. -/
theorem kraft_eq (hMax : g ≤ bmax) (hMost : ∀ k ∈ b, k ≤ g) :
    kraft bmax b = codeEnd (counts b) g g * 2 ^ (bmax - g) := by
  have hCount : ∀ i, 0 < i → i ≤ g → (counts b).getD i 0 = b.count i := fun i _ hi =>
    counts_getD b (by omega)
  rw [codeEnd_sum hCount, kraft, ← List.sum_map_mul_right]
  refine congrArg List.sum (List.map_congr_left fun x hx => ?_)
  have := hMost x hx
  by_cases hZero : x = 0
  · simp [hZero]
  · rw [if_neg hZero, if_pos (by omega), ← Nat.pow_add]
    congr 1
    omega

theorem kraft_le (hMax : g ≤ bmax) (hMost : ∀ k ∈ b, k ≤ g) :
    kraft bmax b ≤ 2 ^ bmax ↔ codeEnd (counts b) g g ≤ 2 ^ g := by
  have hSplit : 2 ^ bmax = 2 ^ g * 2 ^ (bmax - g) := by rw [← Nat.pow_add,
    Nat.add_sub_cancel' hMax]
  rw [kraft_eq hMax hMost, hSplit]
  exact Nat.mul_le_mul_right_iff (Nat.two_pow_pos _)

theorem kraft_full (hMax : g ≤ bmax) (hMost : ∀ k ∈ b, k ≤ g) :
    kraft bmax b = 2 ^ bmax ↔ codeEnd (counts b) g g = 2 ^ g := by
  have hSplit : 2 ^ bmax = 2 ^ g * 2 ^ (bmax - g) := by rw [← Nat.pow_add,
    Nat.add_sub_cancel' hMax]
  rw [kraft_eq hMax hMost, hSplit]
  exact Nat.mul_left_inj (Nat.ne_of_gt (Nat.two_pow_pos _))

end Kraft

/-- Lengths that are not too many have tables, if all patterns have a value or all values a
code. -/
theorem huftBuild_some (stale s m : Nat) {b : List Nat} (d e : Option (List Nat))
    (hLengths : ∀ k ∈ b, k ≤ bmax) (hUsed : ∃ k ∈ b, k ≠ 0)
    (hKraft : kraft bmax b ≤ 2 ^ bmax) (hAll : kraft bmax b = 2 ^ bmax ∨ 0 ∉ b)
    (hValues : ∀ v < b.length, 0 < codeLength b v → Enters s d e [v]) :
    ∃ r p l, huftBuild stale b s d e m = ⟨r, some (some p), l⟩ ∧ r ≤ 1 ∧
      (kraft bmax b = 2 ^ bmax → r = 0) := by
  obtain ⟨j, g, hSpans, hEq⟩ := exists_spans hLengths hUsed
  obtain ⟨k, rfl⟩ : ∃ k, j = k + 1 := ⟨j - 1, by have := hSpans.pos; omega⟩
  have hLe := hSpans.le
  have hMax := hSpans.most
  have hMost := hSpans.le_most hLengths
  have hFit := (kraft_le hMax hMost).mp hKraft
  have hShort : ∀ i, 0 < i → i ≤ k → (counts b).getD i 0 = 0 := fun i h0 hi => by
    rw [counts_getD b (by omega), hSpans.shorter i h0 (by omega)]
  have hStart : 2 ^ (k + 1) * 2 ^ (g - (k + 1)) + codeEnd (counts b) g k = 2 ^ g := by
    rw [codeEnd_none hShort, ← Nat.pow_add, Nat.add_sub_cancel' hLe, Nat.add_zero]
  obtain ⟨y, hRest⟩ := leftOver_some (m := g - k) (by omega) hStart (by omega) hFit
  obtain ⟨hPos, hLeft⟩ := leftOver_spec (by omega) (2 ^ (k + 1)) hStart hRest (by omega)
  have hCount : ∀ i, 0 < i → i < g → ((counts b).modify g (· + y.toNat)).getD i 0 =
      (counts b).getD i 0 := fun i _ hi => by
    rw [Building.Of.modify_getD b g y (by omega), if_neg (by omega),
      counts_getD b (by omega), Nat.add_zero]
  have hBefore : codeCount ((counts b).modify g (· + y.toNat)) k = 0 :=
    codeCount_none fun i h0 hi => (hCount i h0 (by omega)).trans (hShort i h0 hi)
  have hFull : kraft bmax b = 2 ^ bmax → y = 0 := fun h => by
    have := (kraft_full hMax hMost).mp h
    omega
  have hEnters : ∀ i, codeCount ((counts b).modify g (· + y.toNat)) k + i <
      codeCount ((counts b).modify g (· + y.toNat)) (k + (g - k)) →
      Enters s d e ((values b stale).drop i) := by
    intro i hi
    rw [hBefore, Nat.zero_add, Nat.add_sub_cancel' (by omega)] at hi
    by_cases hIn : i < (inOrder bmax b).length
    · obtain ⟨hv, hLength⟩ := mem_inOrder (List.getElem_mem hIn)
      have hDrop : (values b stale).drop i =
          (inOrder bmax b)[i] ::
            ((inOrder bmax b).drop (i + 1) ++ List.replicate (b.count 0) stale) := by
        show (inOrder bmax b ++ _).drop i = _
        rw [List.drop_append_of_le_length (Nat.le_of_lt hIn), List.drop_eq_getElem_cons hIn]
        rfl
      rw [hDrop]
      exact hValues _ hv hLength
    · rcases hAll with hOnly | hNone
      · have hSame : codeCount ((counts b).modify g (· + y.toNat)) g = codeCount (counts b) g :=
          codeCount_congr fun i _ hi => by
            rw [hFull hOnly, Building.Of.modify_getD b g 0 (by omega), counts_getD b (by omega)]
            simp
        have hTotal : codeCount (counts b) bmax = (inOrder bmax b).length :=
          codeCount_eq fun i _ hi => counts_getD b hi
        have hMono : codeCount (counts b) g ≤ codeCount (counts b) bmax := codeCount_mono hMax
        omega
      · have hNil : (values b stale).drop i = [] := by
          show (inOrder bmax b ++ List.replicate (b.count 0) stale).drop i = []
          rw [List.count_eq_zero.mpr hNone, List.replicate_zero, List.append_nil]
          exact List.drop_eq_nil_of_le (Nat.le_of_not_lt hIn)
        rw [hNil]
        exact fun _ => rfl
  obtain ⟨built, hRun⟩ := addLengths_some (g := g) (l := min (max m (k + 1)) g)
    (s := Building.start (values b stale)) hEnters
  have hRest' : leftOver (counts b) (List.range' (k + 1) (g + 1 - (k + 1)))
    (2 ^ (k + 1)) = some y := by
    rw [show g + 1 - (k + 1) = g - k by omega]
    exact_mod_cast hRest
  have hRun' : addLengths ((counts b).modify g (· + y.toNat)) g (min (max m (k + 1)) g) s d e
      (List.range' (k + 1) (g + 1 - (k + 1))) (Building.start (values b stale)) = some built := by
    rw [show g + 1 - (k + 1) = g - k by omega]
    exact hRun
  rw [hEq, hRest']
  simp only [hRun']
  refine ⟨_, _, _, rfl, ?_, fun h => if_neg fun hSome => hSome.1 (hFull h)⟩
  split
  · exact Nat.le_refl 1
  · exact Nat.zero_le 1

end Shutter.Gunzip
