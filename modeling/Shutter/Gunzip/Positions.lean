import Shutter.Gunzip.Huffman
import Shutter.Library.Bits

/-! The positions of the codes in `huft_build`.  A code of length `k` of at most `g` bits has
`2 ^ (g - k)` positions among the patterns of `g` bits, the codes follow each other without a gap,
and the variable `i` is the next position in reverse. -/

namespace Shutter.Gunzip

open Shutter.Library

/-- The position behind the codes of lengths up to `k`. -/
def codeEnd (c : List Nat) (g : Nat) : Nat → Nat
  | 0 => 0
  | k + 1 => codeEnd c g k + c.getD (k + 1) 0 * 2 ^ (g - (k + 1))

/-- The number of codes of lengths up to `k`. -/
def codeCount (c : List Nat) : Nat → Nat
  | 0 => 0
  | k + 1 => codeCount c k + c.getD (k + 1) 0

/-- The codes fill the patterns of `g` bits.  There are few of them, or two levels of tables are
enough. -/
structure Complete (c : List Nat) (g l : Nat) : Prop where
  pos : 0 < l
  le : l ≤ g
  max : g ≤ bmax
  full : codeEnd c g g = 2 ^ g
  last : 0 < c.getD g 0
  short : ∃ k, 0 < k ∧ k ≤ l ∧ 0 < c.getD k 0
  roomy : g ≤ 2 * l ∨ codeCount c g < 2 ^ l

section Positions

variable {c : List Nat} {g l : Nat}

theorem codeEnd_mono {k k' : Nat} (h : k ≤ k') : codeEnd c g k ≤ codeEnd c g k' := by
  induction h with
  | refl => exact Nat.le_refl _
  | step _ ih => exact Nat.le_trans ih (Nat.le_add_right _ _)

theorem codeCount_mono {k k' : Nat} (h : k ≤ k') : codeCount c k ≤ codeCount c k' := by
  induction h with
  | refl => exact Nat.le_refl _
  | step _ ih => exact Nat.le_trans ih (Nat.le_add_right _ _)

/-- Longer codes have fewer positions. -/
theorem codeEnd_le {k k' : Nat} (h : k ≤ k') : codeEnd c g k' + codeCount c k * 2 ^ (g - k) ≤
    codeEnd c g k + codeCount c k' * 2 ^ (g - k) := by
  induction h with
  | refl => exact Nat.le_refl _
  | @step m hkm ih =>
    have hShort : 2 ^ (g - (m + 1)) ≤ 2 ^ (g - k) :=
      Nat.pow_le_pow_right Nat.two_pos (by have : k ≤ m := hkm; omega)
    have hMore := Nat.mul_le_mul_left (c.getD (m + 1) 0) hShort
    simp only [codeEnd, codeCount, Nat.add_mul]
    omega

/-- What is left of the patterns is filled by shorter codes only at the end. -/
theorem Complete.eq_of_full (h : Complete c g l) {k : Nat} (hk : k ≤ g)
    (hFull : 2 ^ g ≤ codeEnd c g k) : k = g := by
  by_contra hNe
  obtain ⟨m, rfl⟩ : ∃ m, g = m + 1 := ⟨g - 1, by have := h.pos; have := h.le; omega⟩
  have hMono : codeEnd c (m + 1) k ≤ codeEnd c (m + 1) m := codeEnd_mono (by omega)
  have hLast := h.full
  rw [codeEnd, Nat.sub_self, Nat.pow_zero, Nat.mul_one] at hLast
  have := h.last
  omega

/-- The loop finds the number of bits from which on only shorter codes are left. -/
theorem tryTables_spec {w stop : Nat} (hRange : w + min (g - w) l ≤ g) {fuel j f k : Nat}
    (hk : k = w + j) (hj : j < min (g - w) l) (hFuel : min (g - w) l ≤ j + fuel)
    (hLeft : f * 2 ^ (g - k) + codeEnd c g k = stop) :
    let j' := tryTables c (min (g - w) l) fuel j f k
    j < j' ∧ j' ≤ min (g - w) l ∧ (j' = min (g - w) l ∨ stop ≤ codeEnd c g (w + j')) := by
  induction fuel generalizing j f k with
  | zero => omega
  | succ fuel ih =>
    subst hk
    have hHalf : 2 ^ (g - (w + j)) = 2 * 2 ^ (g - (w + j + 1)) := by
      rw [← Nat.pow_succ']
      congr 1
      omega
    have hNext : codeEnd c g (w + j + 1) =
        codeEnd c g (w + j) + c.getD (w + j + 1) 0 * 2 ^ (g - (w + j + 1)) := rfl
    unfold tryTables
    by_cases hMore : j + 1 < min (g - w) l
    · rw [if_pos hMore]
      by_cases hEnough : 2 * f ≤ c.getD (w + j + 1) 0
      · rw [if_pos hEnough]
        refine ⟨Nat.lt_succ_self j, Nat.le_of_lt hMore, Or.inr ?_⟩
        have hCover := Nat.mul_le_mul_right (2 ^ (g - (w + j + 1))) hEnough
        rw [← Nat.add_assoc, hNext, ← hLeft, hHalf]
        rw [Nat.mul_comm 2 f, Nat.mul_assoc] at hCover
        omega
      · rw [if_neg hEnough]
        have hStep := ih (j := j + 1) (f := 2 * f - c.getD (w + j + 1) 0) (k := w + j + 1) rfl hMore
          (by omega) (by
            rw [hNext, ← hLeft, hHalf, Nat.sub_mul, Nat.mul_comm 2 f, Nat.mul_assoc]
            have hBelow := Nat.mul_le_mul_right (2 ^ (g - (w + j + 1))) (Nat.le_of_not_le hEnough)
            rw [Nat.mul_comm 2 f, Nat.mul_assoc] at hBelow
            omega)
        exact ⟨Nat.lt_of_succ_lt hStep.1, hStep.2⟩
    · rw [if_neg hMore]
      exact ⟨Nat.lt_succ_self j, hj, Or.inl (by omega)⟩

/-- The next code is at position `S`, and `a` others of its length `k` follow it. -/
structure Next (c : List Nat) (g S k a : Nat) : Prop where
  pos : 0 < k
  le : k ≤ g
  few : a < c.getD k 0
  left : S + (a + 1) * 2 ^ (g - k) = codeEnd c g k

variable {S k a w : Nat}

theorem codeEnd_dvd (h : k ≤ g) : 2 ^ (g - k) ∣ codeEnd c g k := by
  induction k with
  | zero => exact Nat.dvd_zero _
  | succ k ih =>
    refine Nat.dvd_add (Nat.dvd_trans (pow_dvd_pow 2 (by omega)) (ih (by omega))) ?_
    exact Nat.dvd_mul_left _ _

theorem Next.dvd (h : Next c g S k a) : 2 ^ (g - k) ∣ S :=
  (Nat.dvd_add_left (Nat.dvd_mul_left _ (a + 1))).mp (h.left ▸ codeEnd_dvd h.le)

/-- The shorter codes are before it. -/
theorem Next.shorter (h : Next c g S k a) (j : Nat) (hj : j < k) : codeEnd c g j ≤ S := by
  obtain ⟨m, rfl⟩ : ∃ m, k = m + 1 := ⟨k - 1, by omega⟩
  have hMono : codeEnd c g j ≤ codeEnd c g m := codeEnd_mono (by omega)
  have hLeft := h.left
  have hFew : (a + 1) * 2 ^ (g - (m + 1)) ≤ c.getD (m + 1) 0 * 2 ^ (g - (m + 1)) :=
    Nat.mul_le_mul_right _ h.few
  rw [codeEnd] at hLeft
  omega

/-- The first code is not longer than the index of the first table. -/
theorem Next.first (hC : Complete c g l) (h : Next c g S k a) (hZero : S = 0) : k ≤ l := by
  obtain ⟨j, hPos, hLe, hSome⟩ := hC.short
  by_contra hLong
  obtain ⟨m, rfl⟩ : ∃ m, j = m + 1 := ⟨j - 1, by omega⟩
  have hBefore := h.shorter (m + 1) (by omega)
  rw [codeEnd, hZero] at hBefore
  have := Nat.mul_pos hSome (Nat.two_pow_pos (g - (m + 1)))
  omega

theorem Next.lt (hC : Complete c g l) (h : Next c g S k a) : S < 2 ^ g := by
  have hEnd : codeEnd c g k ≤ 2 ^ g := hC.full ▸ codeEnd_mono h.le
  have hLeft := h.left
  have hPos : 0 < (a + 1) * 2 ^ (g - k) := Nat.mul_pos (Nat.succ_pos a) (Nat.two_pow_pos _)
  omega

theorem add_le_of_dvd {n T : Nat} (hS : 2 ^ n ∣ S) (hT : 2 ^ n ∣ T) (hLt : S < T) :
    S + 2 ^ n ≤ T := by
  obtain ⟨q, rfl⟩ := hS
  obtain ⟨r, rfl⟩ := hT
  rw [← Nat.mul_succ]
  exact Nat.mul_le_mul_left _ (Nat.lt_of_mul_lt_mul_left hLt)

/-- The patterns of the same first bits are all there. -/
theorem align_le {n : Nat} (hDvd : 2 ^ n ∣ S) (hn : n ≤ g) (hLt : S < 2 ^ g) :
    S + 2 ^ n ≤ 2 ^ g := add_le_of_dvd hDvd (pow_dvd_pow 2 hn) hLt

/-- Behind the first table, a code that needs a new one fits into it, and there are shorter
tables to try or enough codes to fill it. -/
theorem Complete.room (hC : Complete c g l) (h : Next c g S k a) (hw : w < k) (hl : l ≤ w)
    (hAlign : 2 ^ (g - w) ∣ S) :
    k ≤ w + l ∧ (k - w < min (g - w) l ∨ 2 ^ (k - w) ≤ a + 1) := by
  have hLe := h.le
  have hAll : S + 2 ^ (g - w) ≤ 2 ^ g := align_le hAlign (Nat.sub_le g w) (h.lt hC)
  have hSplit : 2 ^ (g - w) = 2 ^ (k - w) * 2 ^ (g - k) := by
    rw [← Nat.pow_add]
    congr 1
    omega
  have hLeft := h.left
  have hTail := codeEnd_le (c := c) (g := g) h.le
  rw [hC.full] at hTail
  have hMany : 2 ^ (k - w) ≤ codeCount c g := by
    have hFit : a + 1 ≤ codeCount c k := by
      obtain ⟨m, rfl⟩ : ∃ m, k = m + 1 := ⟨k - 1, by omega⟩
      exact Nat.le_trans h.few (Nat.le_add_left _ _)
    have hScaled : (2 ^ (k - w) + codeCount c k) * 2 ^ (g - k) ≤
        (a + 1 + codeCount c g) * 2 ^ (g - k) := by
      rw [Nat.add_mul, Nat.add_mul]
      omega
    have := Nat.le_of_mul_le_mul_right hScaled (Nat.two_pow_pos _)
    omega
  rcases hC.roomy with hTwo | hFew
  · refine ⟨by omega, ?_⟩
    by_cases hLast : k = g
    · subst hLast
      rw [Nat.sub_self, Nat.pow_zero, Nat.mul_one, hC.full] at hLeft
      exact Or.inr (by omega)
    · exact Or.inl (by omega)
  · have hShort : k - w < l := (Nat.pow_lt_pow_iff_right (by decide)).mp
      (Nat.lt_of_le_of_lt hMany hFew)
    refine ⟨by omega, ?_⟩
    by_cases hLast : k = g
    · subst hLast
      rw [Nat.sub_self, Nat.pow_zero, Nat.mul_one, hC.full] at hLeft
      exact Or.inr (by omega)
    · exact Or.inl (by omega)

/-- The bits of a new table behind the first one are enough for its codes, or all that a table
can have. -/
theorem tableBits_spec (hC : Complete c g l) (h : Next c g S k a) (hw : w < k) (hl : l ≤ w)
    (hAlign : 2 ^ (g - w) ∣ S) :
    let j := tableBits c g l w k a
    k ≤ w + j ∧ j ≤ l ∧ w + j ≤ g ∧
      (j = l ∨ S + 2 ^ (g - w) ≤ codeEnd c g (w + j)) := by
  obtain ⟨hFit, hRoom⟩ := hC.room h hw hl hAlign
  have hLe := h.le
  have hSplit : 2 ^ (g - w) = 2 ^ (k - w) * 2 ^ (g - k) := by
    rw [← Nat.pow_add]
    congr 1
    omega
  have hk : w + (k - w) = k := by omega
  unfold tableBits
  by_cases hFull : 2 ^ (k - w) > a + 1
  · rw [if_pos hFull]
    have hShort := hRoom.resolve_right (Nat.not_le_of_gt hFull)
    have hLeft : (2 ^ (k - w) - (a + 1)) * 2 ^ (g - k) + codeEnd c g k = S + 2 ^ (g - w) := by
      have hBelow := Nat.mul_le_mul_right (2 ^ (g - k)) (Nat.le_of_lt hFull)
      rw [Nat.sub_mul, ← h.left, hSplit]
      omega
    have hMax := hC.max
    have hTries := tryTables_spec (by omega) hk.symm hShort
      (show min (g - w) l ≤ k - w + bmax by omega) hLeft
    obtain ⟨hMore, hMost, hEnd⟩ := hTries
    refine ⟨by omega, by omega, by omega, ?_⟩
    rcases hEnd with hAll | hEnough
    · by_cases hl' : tryTables c (min (g - w) l) bmax (k - w) (2 ^ (k - w) - (a + 1)) k = l
      · exact Or.inl hl'
      · right
        rw [show w + tryTables c (min (g - w) l) bmax (k - w)
          (2 ^ (k - w) - (a + 1)) k = g by omega,
          hC.full]
        exact align_le hAlign (Nat.sub_le g w) (h.lt hC)
    · exact Or.inr hEnough
  · rw [if_neg hFull]
    refine ⟨by omega, by omega, by omega, Or.inr ?_⟩
    have hCover := Nat.mul_le_mul_right (2 ^ (g - k)) (Nat.le_of_not_lt hFull)
    rw [hk, ← h.left, hSplit]
    omega

/-- The first table has an entry for each pattern of `l` bits. -/
theorem tableBits_first (hC : Complete c g l) (h : Next c g 0 k a) (hkl : k ≤ l) :
    l ≤ tableBits c g l 0 k a := by
  have hLe := hC.le
  have hMin : min g l = l := by omega
  have hLeft := h.left
  unfold tableBits
  simp only [Nat.sub_zero, hMin]
  by_cases hFull : 2 ^ k > a + 1
  · rw [if_pos hFull]
    by_cases hShort : k < l
    · have hStop : (2 ^ k - (a + 1)) * 2 ^ (g - k) + codeEnd c g k = 2 ^ g := by
        have hSplit : 2 ^ g = 2 ^ k * 2 ^ (g - k) := by rw [← Nat.pow_add,
          Nat.add_sub_cancel' h.le]
        have hBelow := Nat.mul_le_mul_right (2 ^ (g - k)) (Nat.le_of_lt hFull)
        rw [Nat.sub_mul, ← hLeft, hSplit]
        omega
      have hMax := hC.max
      have hTries := tryTables_spec (w := 0) (by omega) (Nat.zero_add k).symm
        (show k < min (g - 0) l by omega) (show min (g - 0) l ≤ k + bmax by omega) hStop
      simp only [Nat.sub_zero, hMin] at hTries
      obtain ⟨-, hMost, hAll | hEnough⟩ := hTries
      · exact Nat.le_of_eq hAll.symm
      · rw [Nat.zero_add] at hEnough
        have := hC.eq_of_full (by omega) hEnough
        omega
    · obtain rfl : k = l := by omega
      show k ≤ if k + 1 < k then _ else k + 1
      rw [if_neg (by omega)]
      exact Nat.le_succ k
  · rw [if_neg hFull]
    have hCover := Nat.mul_le_mul_right (2 ^ (g - k)) (Nat.le_of_not_lt hFull)
    rw [← Nat.pow_add, Nat.add_sub_cancel' h.le] at hCover
    have := hC.eq_of_full h.le (by omega)
    omega

/-- The positions with the same first bits as a multiple. -/
theorem div_eq_iff_of_dvd {n P : Nat} (h : 2 ^ n ∣ S) :
    P / 2 ^ n = S / 2 ^ n ↔ S ≤ P ∧ P < S + 2 ^ n := by
  obtain ⟨q, rfl⟩ := h
  rw [Nat.mul_div_cancel_left _ (Nat.two_pow_pos n), Nat.div_eq_iff (Nat.two_pow_pos n)]
  have := Nat.two_pow_pos n
  rw [Nat.mul_comm]
  omega

end Positions

end Shutter.Gunzip
