import Shutter.Gunzip.Tables

/-! The codes of `huft_build`: each one gets the entries of the last table for its positions, and
the tables that have no more positions are left. -/

namespace Shutter.Gunzip

open Shutter.Library

/-! ### A code -/

theorem fill_length (r : Huft) (f fuel j : Nat) (q : List Huft) :
    (fill r f fuel j q).length = q.length := by
  induction fuel generalizing j q with
  | zero => rfl
  | succ fuel ih =>
    unfold fill
    split
    · rw [ih, List.length_set]
    · rfl

theorem fill_get (r : Huft) {f fuel j : Nat} {q : List Huft} (hf : 0 < f)
    (hFuel : q.length ≤ j + fuel) (i : Nat) :
    (fill r f fuel j q)[i]? = if i < q.length ∧ j ≤ i ∧
    i % f = j % f then some r else q[i]? := by
  induction fuel generalizing j q with
  | zero =>
    rw [if_neg (by omega)]
    rfl
  | succ fuel ih =>
    unfold fill
    by_cases hRoom : j < q.length
    · rw [if_pos hRoom, ih (by rw [List.length_set]; omega), List.length_set, Nat.add_mod_right]
      by_cases hHere : i = j
      · subst hHere
        rw [if_neg (by omega), if_pos ⟨hRoom, Nat.le_refl _, rfl⟩, List.getElem?_set_self hRoom]
      · rw [List.getElem?_set_ne (Ne.symm hHere)]
        refine if_congr ⟨fun h => ⟨h.1, by omega, h.2.2⟩, fun h =>
          ⟨h.1, ?_, h.2.2⟩⟩ rfl rfl
        have hLt : j < i := by omega
        obtain ⟨m, hm⟩ := (Nat.modEq_iff_dvd' (Nat.le_of_lt hLt)).mp h.2.2.symm
        have hPos : 0 < m := by
          by_contra hNot
          rw [Nat.eq_zero_of_not_pos hNot, Nat.mul_zero] at hm
          omega
        have := Nat.le_mul_of_pos_right f hPos
        omega
    · rw [if_neg hRoom, if_neg (by omega)]

theorem increment_reverseBits (k n : Nat) :
    increment k (reverseBits k n) = reverseBits k (n + 1) := by
  induction k generalizing n with
  | zero => rfl
  | succ k ih =>
    have hTop : (reverseBits (k + 1) n).testBit k = decide (n % 2 = 1) := by
      rw [reverseBits, Nat.testBit_eq_decide_div_mod_eq, Nat.mul_add_div (Nat.two_pow_pos k),
        Nat.div_eq_of_lt (reverseBits_lt _ _), Nat.add_zero, Nat.mod_mod]
    rw [increment, hTop]
    by_cases hOdd : n % 2 = 1
    · have hCarry : (n + 1) / 2 = n / 2 + 1 := by omega
      have hLow : (n + 1) % 2 = 0 := by omega
      rw [if_pos (by simpa using hOdd), reverseBits, hOdd, Nat.mul_one, Nat.add_sub_cancel_left, ih,
        reverseBits, hLow, hCarry, Nat.mul_zero, Nat.zero_add]
    · have hEven : n % 2 = 0 := by omega
      have hCarry : (n + 1) / 2 = n / 2 := by omega
      have hLow : (n + 1) % 2 = 1 := by omega
      rw [if_neg (by simpa using hOdd), reverseBits, hEven, reverseBits, hLow, hCarry, Nat.mul_zero,
        Nat.zero_add, Nat.mul_one, Nat.add_comm]

theorem reverseBits_of_dvd {g k S : Nat} (hk : k ≤ g) (h : 2 ^ (g - k) ∣ S) :
    reverseBits g S = reverseBits k (S / 2 ^ (g - k)) := by
  rw [← reverseBits_mod hk, Nat.mod_eq_of_lt (reverseBits_lt_of_dvd hk h)]

/-- `i` goes on to the next position. -/
theorem increment_spec {g k S : Nat} (hk : k ≤ g) (h : 2 ^ (g - k) ∣ S) :
    increment k (reverseBits g S) = reverseBits g (S + 2 ^ (g - k)) := by
  rw [reverseBits_of_dvd hk h, increment_reverseBits, reverseBits_of_dvd hk
    (Nat.dvd_add h (Nat.dvd_refl _)),
    Nat.add_div_right _ (Nat.two_pow_pos _)]

/-- The entries for a code. -/
def putCode (l k : Nat) (r : Huft) (s : Building) : Building :=
  { s with
    p := s.p.tail, i := increment k s.i,
    tables := s.tables.modify (s.u[s.levels - 1]?.getD 0)
      fun q => fill r (2 ^ (k - s.w l)) q.length (s.i / 2 ^ s.w l) q }

theorem addCode_eq (c : List Nat) (g l n : Nat) (d e : Option (List Nat)) (k a : Nat)
    (s : Building) :
    addCode c g l n d e k a s =
      let s := makeTables c g l k a bmax s
      (entry n d e (k - s.w l) s.p).map fun r => backUp l bmax (putCode l k r s) := by
  unfold addCode
  simp only
  cases entry n d e (k - (makeTables c g l k a bmax s).w l) (makeTables c g l k a bmax s).p <;> rfl

/-- The code at `S` comes next and gets the entry `r`. -/
structure Job.Puts (J : Job) (place : Nat → Place) (S k a : Nat) (r : Huft) (s : Building) : Prop
    extends J.Ready place S k s where
  complete : Complete J.c J.g J.l
  next : Next J.c J.g S k a
  enough : k ≤ J.l * s.levels
  code : ∀ P, S ≤ P → P < S + 2 ^ (J.g - k) → J.codeAt P = (k, s.p)
  entry : entry J.s J.d J.e (k - s.w J.l) s.p = some r

namespace Job.Puts

variable {J : Job} {place : Nat → Place} {S k a : Nat} {r : Huft} {s : Building}

/-- The level of the table that the code is in. -/
theorem level (h : J.Puts place S k a r s) : s.levels - 1 < s.levels := by
  have hEnough := h.enough
  have := h.next.pos
  rcases Nat.eq_zero_or_pos s.levels with hZero | hPos
  · rw [hZero, Nat.mul_zero] at hEnough
    omega
  · omega

theorem top_lt (h : J.Puts place S k a r s) : s.top (s.levels - 1) < s.tables.length :=
  h.stacked.mem _ h.level

theorem fits (h : J.Puts place S k a r s) : J.Fits (place (s.top (s.levels - 1))) :=
  h.filled.fits _ h.top_lt

theorem width (h : J.Puts place S k a r s) :
    J.l * (place (s.top (s.levels - 1))).level = s.w J.l := by
  rw [h.stacked.level _ h.level]
  rfl

/-- The index of the table has the bits of the code. -/
theorem le_bits (h : J.Puts place S k a r s) :
    k ≤ s.w J.l + (place (s.top (s.levels - 1))).bits := by
  by_contra hShort
  have hBits := h.fits.bits_eq h.next (Or.inl (by rw [h.width]; omega)) (h.inside _ h.level)
  have hLevel := h.level
  have hWide : s.w J.l + J.l = J.l * s.levels := by
    rw [Building.w, ← Nat.mul_succ, Nat.succ_eq_add_one, Nat.sub_add_cancel (by omega)]
  have := h.enough
  omega

theorem has (h : J.Puts place S k a r s) : J.Has (place (s.top (s.levels - 1))) S :=
  ⟨h.stacked.start _ h.level, h.inside _ h.level⟩

/-- All tables of the stack have the positions of the code. -/
theorem le_stop (h : J.Puts place S k a r s) {t : Nat} (ht : t < s.levels) :
    S + 2 ^ (J.g - k) ≤ J.stop (place (s.top t)) := by
  have hFit := h.filled.fits _ (h.stacked.mem t ht)
  have hAlign := hFit.align
  have hStop : J.stop (place (s.top t)) = (place (s.top t)).start + 2 ^ (J.g - J.l * t) := by
    rw [stop, h.stacked.level t ht]
  have hWide : J.l * t ≤ k := by
    have hLow : J.l * t ≤ J.l * (s.levels - 1) := Nat.mul_le_mul_left _ (by omega)
    exact Nat.le_of_lt (Nat.lt_of_le_of_lt hLow h.above)
  rw [h.stacked.level t ht] at hAlign
  refine add_le_of_dvd h.next.dvd ?_ (h.inside t ht)
  rw [hStop]
  exact Nat.dvd_add (Nat.dvd_trans (pow_dvd_pow 2 (by omega)) hAlign) (pow_dvd_pow 2 (by omega))

theorem index_mod (h : J.Puts place S k a r s) :
    J.index (place (s.top (s.levels - 1))) S % 2 ^ (k - s.w J.l) = s.i / 2 ^ s.w J.l := by
  have hBits := h.le_bits
  have hLt : reverseBits J.g S < 2 ^ (s.w J.l + (k - s.w J.l)) := by
    have hAbove : s.w J.l < k := h.above
    rw [Nat.add_sub_cancel' (Nat.le_of_lt hAbove)]
    exact reverseBits_lt_of_dvd h.next.le h.next.dvd
  rw [Nat.pow_add] at hLt
  rw [Job.index, h.width, Nat.mod_mod_of_dvd _ (pow_dvd_pow 2 (by omega)), h.stacked.i,
    Nat.mod_eq_of_lt (Nat.div_lt_of_lt_mul hLt)]

/-- The entries that are set are those of the positions of the code. -/
theorem index_mod_iff (h : J.Puts place S k a r s) {P : Nat}
    (hP : J.Has (place (s.top (s.levels - 1))) P) :
    J.index (place (s.top (s.levels - 1))) P % 2 ^ (k - s.w J.l) = s.i / 2 ^ s.w J.l ↔
      S ≤ P ∧ P < S + 2 ^ (J.g - k) := by
  have hBits := h.le_bits
  have hAbove : s.w J.l < k := h.above
  rw [← h.index_mod, h.fits.index_mod_iff hP h.has (by omega), h.width,
    Nat.add_sub_cancel' (Nat.le_of_lt hAbove), div_eq_iff_of_dvd h.next.dvd]

theorem get_other {q : Nat} (hq : q ≠ s.top (s.levels - 1)) (i : Nat) :
    HuftPtr.get ⟨(putCode J.l k r s).tables, q, i⟩ = HuftPtr.get ⟨s.tables, q, i⟩ :=
  get_modify_ne _ hq i

theorem get_top (h : J.Puts place S k a r s) {P : Nat}
    (hP : J.Has (place (s.top (s.levels - 1))) P) :
    HuftPtr.get ⟨(putCode J.l k r s).tables, s.top (s.levels - 1),
        J.index (place (s.top (s.levels - 1))) P⟩ =
      if S ≤ P ∧ P < S + 2 ^ (J.g - k) then r
      else HuftPtr.get ⟨s.tables, s.top (s.levels - 1),
        J.index (place (s.top (s.levels - 1))) P⟩ := by
  have hPos : 0 < 2 ^ (k - s.w J.l) := Nat.two_pow_pos _
  have hSize : J.index (place (s.top (s.levels - 1))) P <
      (s.tables[s.top (s.levels - 1)]?.getD []).length :=
    Nat.lt_of_lt_of_le (index_lt _ _) (h.filled.size _ h.top_lt)
  have hLow : s.i / 2 ^ s.w J.l < 2 ^ (k - s.w J.l) := h.index_mod ▸ Nat.mod_lt _ hPos
  have hMod := h.index_mod_iff hP
  show ((((s.tables.modify (s.top (s.levels - 1)) _)[s.top (s.levels - 1)]?).getD
    [])[_]?).getD _ = _
  rw [getElem?_modify_eq _ h.top_lt, fill_get r hPos (Nat.le_add_left _ _), Nat.mod_eq_of_lt hLow]
  by_cases hHere : S ≤ P ∧ P < S + 2 ^ (J.g - k)
  · have hSame := hMod.mpr hHere
    rw [if_pos hHere, if_pos ⟨hSize, hSame ▸ Nat.mod_le _ _, hSame⟩]
    rfl
  · rw [if_neg hHere, if_neg fun hSet => hHere (hMod.mp hSet.2.2)]
    rfl

theorem put_size (h : J.Puts place S k a r s) {q : Nat} :
    (((putCode J.l k r s).tables[q]?).getD []).length = (s.tables[q]?.getD []).length := by
  by_cases hSame : q = s.top (s.levels - 1)
  · subst hSame
    refine (congrArg List.length (getElem?_modify_eq _ h.top_lt)).trans ?_
    exact fill_length ..
  · exact congrArg (fun o => (Option.getD o []).length) (getElem?_modify_ne _ hSame)

theorem put_length : (putCode J.l k r s).tables.length = s.tables.length := List.length_modify ..

theorem put_filled (h : J.Puts place S k a r s) :
    J.Filled place (S + 2 ^ (J.g - k)) (putCode J.l k r s).tables := by
  have hLength := put_length (J := J) (k := k) (r := r) (s := s)
  refine ⟨hLength ▸ h.filled.root, fun q hq => ?_, hLength ▸ h.filled.fits,
    fun q hq P hP hLt => ?_⟩
  · rw [h.put_size]
    exact h.filled.size q (hLength ▸ hq)
  rw [hLength] at hq ⊢
  by_cases hOld : P < S
  · have hSame : HuftPtr.get ⟨(putCode J.l k r s).tables, q, J.index (place q) P⟩ =
        HuftPtr.get ⟨s.tables, q, J.index (place q) P⟩ := by
      by_cases hTop : q = s.top (s.levels - 1)
      · subst hTop
        rw [h.get_top hP, if_neg (by omega)]
      · exact get_other hTop _
    rw [hSame]
    exact h.filled.leads q hq P hP hOld
  · have hStart : S ≤ P := Nat.le_of_not_lt hOld
    -- only the tables of the stack have positions from `S` on
    obtain ⟨t, ht, rfl⟩ := (h.stacked.dead q hq).resolve_right fun hDead => by
      have := hP.2
      omega
    by_cases hLast : t + 1 < s.levels
    · have hNext := h.stacked.link t hLast
      have hBehind : J.Has (place (s.top (t + 1))) P :=
        ⟨Nat.le_trans (h.stacked.start _ hLast) hStart,
          Nat.lt_of_lt_of_le hLt (h.le_stop hLast)⟩
      have hOther : s.top t ≠ s.top (s.levels - 1) := fun hEq => by
        have hSame := h.stacked.level t ht
        rw [hEq, h.stacked.level _ h.level] at hSame
        omega
      refine .table (h.stacked.mem _ hLast) ?_ hBehind hNext.1 ?_
      · rw [h.stacked.level _ hLast, h.stacked.level t ht]
      · rw [get_other hOther, hNext.2 P hBehind]
    · obtain rfl : t = s.levels - 1 := by omega
      have hBits := h.le_bits
      rw [h.get_top hP, if_pos ⟨hStart, hLt⟩]
      refine .value (h.code P hStart hLt) ?_ ?_ ?_
      · rw [h.width]
        exact h.above
      · rw [h.width]
        exact hBits
      · rw [h.width]
        exact h.entry

theorem put_stacked (h : J.Puts place S k a r s) :
    J.Stacked place (S + 2 ^ (J.g - k)) (putCode J.l k r s) := by
  have hLength := put_length (J := J) (k := k) (r := r) (s := s)
  refine { h.stacked with
    i := ?_
    mem := fun t ht => hLength ▸ h.stacked.mem t ht
    start := fun t ht => Nat.le_trans (h.stacked.start t ht) (Nat.le_add_right _ _)
    link := fun t ht => ⟨(h.stacked.link t ht).1, fun P hP => ?_⟩
    dead := fun q hq => (h.stacked.dead q (hLength ▸ hq)).imp_right fun hDead =>
      Nat.le_trans hDead (Nat.le_add_right _ _)
    align := ?_ }
  · show increment k s.i = _
    rw [h.stacked.i, increment_spec h.next.le h.next.dvd]
  · have hOther : s.top t ≠ s.top (s.levels - 1) := fun hEq => by
      have ht' : t + 1 < s.levels := ht
      have hSame := h.stacked.level t (by omega)
      rw [hEq, h.stacked.level _ h.level] at hSame
      omega
    exact (get_other hOther _).trans ((h.stacked.link t ht).2 P hP)
  · have := h.enough
    refine Nat.dvd_add (Nat.dvd_trans (pow_dvd_pow 2 ?_) h.next.dvd) (pow_dvd_pow 2 ?_)
    · show J.g - J.l * s.levels ≤ J.g - k
      omega
    · show J.g - J.l * s.levels ≤ J.g - k
      omega

end Job.Puts

/-! ### Finished tables -/

section BackUp

variable {J : Job} {place : Nat → Place} {S : Nat} {s : Building}

theorem Job.Stacked.stop_le (h : J.Stacked place S s) {t t' : Nat} (hLe : t ≤ t')
    (ht : t' < s.levels) :
    J.stop (place (s.top t')) ≤ J.stop (place (s.top t)) := by
  induction hLe with
  | refl => exact Nat.le_refl _
  | step _ ih => exact Nat.le_trans (h.nested _ ht) (ih (Nat.lt_of_succ_lt ht))

/-- The pattern of the last table is that of the positions that come to it. -/
theorem Job.Stacked.pattern_iff (h : J.Stacked place S s) (hF : J.Filled place S s.tables)
    (hPos : 0 < s.levels) (hLt : S < 2 ^ J.g) :
    s.i % 2 ^ s.w J.l = s.x[s.levels - 1]?.getD 0 ↔
      S < J.stop (place (s.top (s.levels - 1))) := by
  have hBelow : s.levels - 1 < s.levels := by omega
  have hFit := hF.fits _ (h.mem _ hBelow)
  have hWidth : J.l * (place (s.top (s.levels - 1))).level = s.w J.l := by
    rw [h.level _ hBelow]
    rfl
  have hAlign := hFit.align
  have hLe := Nat.le_of_lt hFit.below
  have hStart : (place (s.top (s.levels - 1))).start < 2 ^ J.g := hFit.lt
  rw [hWidth] at hAlign hLe
  have hSmall : reverseBits J.g (place (s.top (s.levels - 1))).start < 2 ^ s.w J.l :=
    reverseBits_lt_of_dvd hLe hAlign
  rw [h.pattern _ hBelow, h.i, ← Nat.mod_eq_of_lt hSmall, reverseBits_mod_eq_iff hLe hLt hStart,
    div_eq_iff_of_dvd hAlign, Job.stop, hWidth]
  exact and_iff_right (h.start _ hBelow)

/-- A table that has no more positions is left. -/
theorem Job.Stacked.pop (h : J.Stacked place S s) (hF : J.Filled place S s.tables)
    (hPos : 0 < s.levels) (hStop : J.stop (place (s.top (s.levels - 1))) = S) :
    J.Stacked place S { s with levels := s.levels - 1 } := by
  have hBelow : ∀ {t}, t < s.levels - 1 → t < s.levels := fun ht => by omega
  refine { h with
    levels := Nat.le_trans (Nat.sub_le _ _) h.levels
    mem := fun t ht => h.mem t (hBelow ht)
    level := fun t ht => h.level t (hBelow ht)
    pattern := fun t ht => h.pattern t (hBelow ht)
    start := fun t ht => h.start t (hBelow ht)
    nested := fun t ht => h.nested t (hBelow ht)
    link := fun t ht => h.link t (hBelow ht)
    dead := fun q hq => ?_
    align := ?_ }
  · rcases h.dead q hq with ⟨t, ht, hTop⟩ | hDead
    · by_cases hLast : t < s.levels - 1
      · exact Or.inl ⟨t, hLast, hTop⟩
      · obtain rfl : t = s.levels - 1 := by omega
        exact Or.inr (hTop ▸ Nat.le_of_eq hStop)
    · exact Or.inr hDead
  · have hAlign := (hF.fits _ (h.mem _ (show s.levels - 1 < s.levels by omega))).align
    rw [h.level _ (by omega)] at hAlign
    rw [← hStop, Job.stop, h.level _ (by omega)]
    exact Nat.dvd_add hAlign (Nat.dvd_refl _)

/-- The loop leaves the tables that have no more positions. -/
theorem backUp_spec {fuel : Nat} (h : J.Stacked place S s) (hF : J.Filled place S s.tables)
    (hReach : ∀ t < s.levels, S ≤ J.stop (place (s.top t))) (hPos : 0 < s.levels)
    (hLt : S < 2 ^ J.g) (hFuel : s.levels ≤ fuel) :
    J.Stacked place S (backUp J.l fuel s) ∧ J.Inside place S (backUp J.l fuel s) ∧
      (backUp J.l fuel s).tables = s.tables ∧ (backUp J.l fuel s).p = s.p ∧
      (backUp J.l fuel s).levels ≤ s.levels ∧ 0 < (backUp J.l fuel s).levels := by
  induction fuel generalizing s with
  | zero => omega
  | succ fuel ih =>
    have hIff := h.pattern_iff hF hPos hLt
    unfold backUp
    by_cases hSame : s.i % 2 ^ s.w J.l = s.x[s.levels - 1]?.getD 0
    · rw [if_neg (not_not.mpr hSame)]
      refine ⟨h, fun t ht => ?_, rfl, rfl, Nat.le_refl _, hPos⟩
      exact Nat.lt_of_lt_of_le (hIff.mp hSame) (h.stop_le (by omega) (by omega))
    · rw [if_pos hSame]
      have hStop : J.stop (place (s.top (s.levels - 1))) = S :=
        Nat.le_antisymm (Nat.le_of_not_lt fun hIn => hSame (hIff.mpr hIn)) (hReach _ (by omega))
      -- the first table has all positions
      have hMore : 0 < s.levels - 1 := by
        refine Nat.pos_of_ne_zero fun hZero => hSame ?_
        rw [Building.w, hZero, Nat.mul_zero, Nat.pow_zero, Nat.mod_one, h.first]
      have hRest :=
        ih (h.pop hF hPos hStop) hF (fun t ht => hReach t (Nat.lt_of_lt_of_le ht (Nat.sub_le _ _)))
        hMore (Nat.sub_le_of_le_add hFuel)
      obtain ⟨hStacked, hInside, hTables, hP, hLevels, hSome⟩ := hRest
      exact ⟨hStacked, hInside, hTables, hP, Nat.le_trans hLevels (Nat.sub_le _ _), hSome⟩

theorem backUp_tables (l fuel : Nat) (s : Building) :
    (backUp l fuel s).tables = s.tables ∧ (backUp l fuel s).p = s.p := by
  induction fuel generalizing s with
  | zero => exact ⟨rfl, rfl⟩
  | succ fuel ih =>
    unfold backUp
    split
    · exact ih _
    · exact ⟨rfl, rfl⟩

end BackUp

/-! ### All codes -/

/-- The tables are there for the positions before `S`, and codes of length `k` follow. -/
def Job.Between (J : Job) (S k : Nat) (s : Building) : Prop :=
  ∃ place, J.Filled place S s.tables ∧ (S < 2 ^ J.g → J.Ready place S k s) ∧
    (0 < S → 0 < s.tables.length)

/-- The codes of length `k` have the positions behind the shorter ones, one after the other, and the
values of `v` in order. -/
def Job.InOrder (J : Job) (v : List Nat) : Prop :=
  ∀ k m, k < J.g → m < J.c.getD (k + 1) 0 → ∀ P,
    codeEnd J.c J.g k + m * 2 ^ (J.g - (k + 1)) ≤ P →
    P < codeEnd J.c J.g k + (m + 1) * 2 ^ (J.g - (k + 1)) →
    J.codeAt P = (k + 1, v.drop (codeCount J.c k + m))

section All

variable {J : Job} {S k a : Nat} {s s' : Building} {v : List Nat}

theorem addCode_spec (hC : Complete J.c J.g J.l) (hNext : Next J.c J.g S k a) (h : J.Between S k s)
    (hCode : ∀ P, S ≤ P → P < S + 2 ^ (J.g - k) → J.codeAt P = (k, s.p))
    (hAdd : addCode J.c J.g J.l J.s J.d J.e k a s = some s') :
    J.Between (S + 2 ^ (J.g - k)) k s' ∧ s'.p = s.p.tail := by
  obtain ⟨place, -, hReady, -⟩ := h
  obtain ⟨place', hMade, hEnough, hp⟩ := makeTables_spec hC hNext (hReady (hNext.lt hC))
    (Nat.le_add_left bmax _)
  rw [addCode_eq] at hAdd
  obtain ⟨r, hEntry, rfl⟩ := Option.map_eq_some_iff.mp hAdd
  have hPuts : J.Puts place' S k a r (makeTables J.c J.g J.l k a bmax s) :=
    { hMade with complete := hC, next := hNext, enough := hEnough, code := hp ▸ hCode,
                 entry := hEntry }
  have hFilled := hPuts.put_filled
  obtain ⟨hTables, hTail⟩ := backUp_tables J.l bmax
    (putCode J.l k r (makeTables J.c J.g J.l k a bmax s))
  refine ⟨⟨place', hTables ▸ hFilled, fun hLt => ?_, fun _ => ?_⟩, ?_⟩
  · obtain ⟨hStacked, hInside, -, -, hLevels, -⟩ := backUp_spec hPuts.put_stacked hFilled
      (fun t ht => hPuts.le_stop ht) (Nat.zero_lt_of_lt hPuts.level) hLt hMade.stacked.levels
    refine ⟨hTables ▸ hFilled, hStacked, hInside, Nat.lt_of_le_of_lt ?_ hMade.above⟩
    exact Nat.mul_le_mul_left _ (Nat.sub_le_sub_right hLevels 1)
  · rw [hTables, Job.Puts.put_length]
    exact Nat.zero_lt_of_lt hPuts.top_lt
  · rw [hTail, ← hp]
    rfl

theorem addCodes_spec (hC : Complete J.c J.g J.l) (hOrder : J.InOrder v) (hk : k < J.g) {m : Nat}
    (hCount : m + a = J.c.getD (k + 1) 0) (hS : S = codeEnd J.c J.g k + m * 2 ^ (J.g - (k + 1)))
    (h : J.Between S (k + 1) s) (hp : s.p = v.drop (codeCount J.c k + m))
    (hAdd : addCodes J.c J.g J.l J.s J.d J.e (k + 1) a s = some s') :
    J.Between (codeEnd J.c J.g (k + 1)) (k + 1) s' ∧ s'.p = v.drop (codeCount J.c (k + 1)) := by
  induction a generalizing m S s with
  | zero =>
    obtain rfl := Option.some.inj hAdd
    have hEnd : codeEnd J.c J.g (k + 1) = S := by rw [hS, ← Nat.add_zero m, hCount, codeEnd]
    have hAll : codeCount J.c (k + 1) = codeCount J.c k + m := by
      rw [codeCount, ← hCount, Nat.add_zero]
    rw [hEnd, hAll]
    exact ⟨h, hp⟩
  | succ a ih =>
    obtain ⟨t, hFirst, hRest⟩ := Option.bind_eq_some_iff.mp hAdd
    have hSplit : codeEnd J.c J.g (k + 1) = S + (a + 1) * 2 ^ (J.g - (k + 1)) := by
      rw [hS, codeEnd, ← hCount, Nat.add_mul, Nat.add_assoc]
    have hNext : Next J.c J.g S (k + 1) a := ⟨Nat.succ_pos k, hk, by omega, hSplit.symm⟩
    have hBehind : S + 2 ^ (J.g - (k + 1)) = codeEnd J.c J.g k + (m + 1) * 2 ^ (J.g - (k + 1)) := by
      rw [hS, Nat.succ_mul, Nat.add_assoc]
    obtain ⟨hBetween, hTail⟩ := addCode_spec hC hNext h (fun P hLow hHigh => by
      rw [hp]
      exact hOrder k m hk (by omega) P (hS ▸ hLow) (hBehind ▸ hHigh)) hFirst
    refine ih (by omega) hBehind hBetween ?_ hRest
    rw [hTail, hp, List.tail_drop, Nat.add_assoc]

theorem addLengths_spec (hC : Complete J.c J.g J.l) (hOrder : J.InOrder v) {n : Nat}
    (hk : k + n = J.g) (h : J.Between (codeEnd J.c J.g k) (k + 1) s)
    (hp : s.p = v.drop (codeCount J.c k))
    (hAdd : addLengths J.c J.g J.l J.s J.d J.e (List.range' (k + 1) n) s = some s') :
    J.Between (2 ^ J.g) (J.g + 1) s' := by
  induction n generalizing k s with
  | zero =>
    obtain rfl := Option.some.inj hAdd
    obtain rfl : k = J.g := hk
    exact hC.full ▸ h
  | succ n ih =>
    obtain ⟨t, hFirst, hRest⟩ := Option.bind_eq_some_iff.mp hAdd
    obtain ⟨⟨place, hFilled, hReady, hSome⟩, hLast⟩ := addCodes_spec hC hOrder (by omega)
      (Nat.zero_add _) (by rw [Nat.zero_mul, Nat.add_zero]) h (by rw [hp, Nat.add_zero]) hFirst
    refine ih (by omega) ⟨place, hFilled, fun hLt => ?_, hSome⟩ hLast hRest
    exact { hReady hLt with above := Nat.lt_succ_of_lt (hReady hLt).above }

end All

end Shutter.Gunzip
