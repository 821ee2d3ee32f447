import Shutter.Gunzip.Response

/-! The numbers that `strtol` reads from a line.  It stops at the first byte that is no digit, but
blanks in front of the number are skipped, so a blank field is read into what stands behind it. -/

namespace Shutter.Gunzip

/-- `isspace`. -/
def Blank (c : UInt8) : Prop := c = 32 ∨ (9 ≤ c.toNat ∧ c.toNat ≤ 13)

instance (c : UInt8) : Decidable (Blank c) :=
  inferInstanceAs (Decidable (c = 32 ∨ (9 ≤ c.toNat ∧ c.toNat ≤ 13)))

/-- A number ends in front of the text: it does not start with a digit, or with the `x` of a
prefix. -/
def EndsNumber (t : List UInt8) : Prop := ∀ c ∈ t.head?, 16 ≤ digit c ∧
    c ≠ 120 ∧ c ≠ 88

theorem not_blank_of_digit {c : UInt8} (hc : digit c < 16) : ¬Blank c := by
  rintro (rfl | ⟨hLow, hHigh⟩)
  · exact absurd hc (by decide)
  · unfold digit at hc
    split_ifs at hc <;> omega

theorem endsNumber_nil : EndsNumber [] := by simp [EndsNumber]

theorem endsNumber_cr (t : List UInt8) : EndsNumber (13 :: t) := by
  intro c hc
  obtain rfl : 13 = c := by simpa using hc
  decide

section Numbers

variable {base : Nat} {s t : List UInt8}

/-! ### Digits -/

theorem takeWhile_digit_stops (hBase : base ≤ 16) (hStop : EndsNumber t) :
    (t.takeWhile fun c => digit c < base) = [] := by
  rcases t with _ | ⟨c, t⟩
  · rfl
  · have hNone : ¬digit c < base := by
      have := (hStop c rfl).1
      omega
    rw [List.takeWhile_cons, if_neg (by simpa using hNone)]

theorem digits_append (hBase : base ≤ 16) (hStop : EndsNumber t) :
    digits base (s ++ t) = digits base s := by
  unfold digits
  rw [List.takeWhile_append]
  split
  · next hAll =>
    rw [takeWhile_digit_stops hBase hStop, List.append_nil,
      List.IsPrefix.eq_of_length (List.takeWhile_prefix _) hAll]
  · rfl

theorem digits_stops (hBase : base ≤ 16) (hStop : EndsNumber t) : digits base t = 0 := by
  rw [digits, takeWhile_digit_stops hBase hStop]
  rfl

theorem digits_eq_foldl (hDigits : ∀ c ∈ s, digit c < base) :
    digits base s = s.foldl (fun n c => base * n + digit c) 0 := by
  rw [digits, List.takeWhile_eq_self_iff.mpr fun c hc => decide_eq_true (hDigits c hc)]

theorem digits_concat {c : UInt8} (hDigits : ∀ c ∈ s, digit c < base) (hc : digit c < base) :
    digits base (s ++ [c]) = base * digits base s + digit c := by
  have hAll : ∀ d ∈ s ++ [c], digit d < base := by
    intro d hd
    rcases List.mem_append.mp hd with hd | hd
    · exact hDigits d hd
    · rw [List.mem_singleton.mp hd]
      exact hc
  rw [digits_eq_foldl hAll, digits_eq_foldl hDigits, List.foldl_append]
  rfl

/-- The prefix `0x` counts in front of a digit only. -/
theorem strtolDigits_plain (hPlain : ∀ x c u, s = 48 :: x :: c :: u →
    ¬(base = 16 ∧ (x = 120 ∨ x = 88) ∧ digit c < base)) :
    strtolDigits base s = digits base s := by
  unfold strtolDigits
  split
  · next x c u => exact if_neg (hPlain x c u rfl)
  · rfl

theorem strtolDigits_append (hBase : base ≤ 16) (hStop : EndsNumber t) :
    strtolDigits base (s ++ t) = strtolDigits base s := by
  rcases s with _ | ⟨a, _ | ⟨b, _ | ⟨d, s⟩⟩⟩
  · rw [List.nil_append, strtolDigits_plain, digits_stops hBase hStop]
    · rfl
    · rintro x c u rfl
      exact absurd (hStop 48 rfl).1 (by decide)
  · rw [strtolDigits_plain, digits_append hBase hStop]
    · exact (strtolDigits_plain (by simp)).symm
    · rintro x c u hText ⟨-, hx, -⟩
      obtain ⟨-, rfl⟩ := List.cons.inj hText
      exact hx.elim (hStop x rfl).2.1 (hStop x rfl).2.2
  · rw [strtolDigits_plain, digits_append hBase hStop]
    · exact (strtolDigits_plain (by simp)).symm
    · rintro x c u hText ⟨-, -, hc⟩
      obtain ⟨-, hText⟩ := List.cons.inj hText
      obtain ⟨-, rfl⟩ := List.cons.inj hText
      have := (hStop c rfl).1
      omega
  · have hRest : digits base (d :: s ++ t) = digits base (d :: s) := digits_append hBase hStop
    have hWhole : digits base (a :: b :: d :: s ++ t) = digits base (a :: b :: d :: s) :=
      digits_append hBase hStop
    simp only [List.cons_append] at hRest hWhole ⊢
    by_cases ha : a = 48
    · subst ha
      simp only [strtolDigits, hRest, hWhole]
    · rw [strtolDigits_plain fun x c u h => absurd (List.cons.inj h).1 ha,
        strtolDigits_plain fun x c u h => absurd (List.cons.inj h).1 ha, hWhole]

theorem strtolDigits_hex (hDigits : ∀ c ∈ s, digit c < 16) :
    strtolDigits 16 s = digits 16 s := by
  apply strtolDigits_plain
  rintro x c u rfl ⟨-, hx, -⟩
  have hDigit := hDigits x (by simp)
  rcases hx with rfl | rfl <;> exact absurd hDigit (by decide)

/-! ### Strings -/

/-- Blanks are skipped. -/
theorem strtol_blank (hBlank : ∀ c ∈ s, Blank c) : strtol base (s ++ t) = strtol base t := by
  have hSkip : ((s ++ t).dropWhile fun c => c = 32 ∨ (9 ≤ c.toNat ∧ c.toNat ≤ 13)) =
      t.dropWhile fun c => c = 32 ∨ (9 ≤ c.toNat ∧ c.toNat ≤ 13) :=
    List.dropWhile_append_of_pos fun c hc => decide_eq_true (hBlank c hc)
  rw [strtol, strtol, hSkip]

theorem strtol_append (hBase : base ≤ 16) (hText : ∃ c ∈ s, ¬Blank c)
    (hStop : EndsNumber t) :
    strtol base (s ++ t) = strtol base s := by
  have hSkip : ((s ++ t).dropWhile fun c => c = 32 ∨ (9 ≤ c.toNat ∧ c.toNat ≤ 13)) =
      (s.dropWhile fun c => c = 32 ∨ (9 ≤ c.toNat ∧ c.toNat ≤ 13)) ++ t := by
    rw [List.dropWhile_append, if_neg]
    rw [List.isEmpty_iff, List.dropWhile_eq_nil_iff]
    obtain ⟨c, hc, hNot⟩ := hText
    exact fun hAll => hNot (of_decide_eq_true (hAll c hc))
  have hSome : (s.dropWhile fun c => c = 32 ∨ (9 ≤ c.toNat ∧ c.toNat ≤ 13)) ≠ [] := by
    rw [ne_eq, List.dropWhile_eq_nil_iff]
    obtain ⟨c, hc, hNot⟩ := hText
    exact fun hAll => hNot (of_decide_eq_true (hAll c hc))
  rw [strtol, strtol, hSkip]
  generalize (s.dropWhile fun c => c = 32 ∨ (9 ≤ c.toNat ∧ c.toNat ≤ 13)) = u at hSome ⊢
  rcases u with _ | ⟨a, u⟩
  · exact absurd rfl hSome
  · have hRest := strtolDigits_append (s := u) hBase hStop
    have hWhole := strtolDigits_append (s := a :: u) hBase hStop
    rw [List.cons_append] at hWhole ⊢
    by_cases hMinus : a = 45
    · subst hMinus
      simp only [hRest]
    by_cases hPlus : a = 43
    · subst hPlus
      simp only [hRest]
    · simp [hMinus, hPlus, hWhole]

theorem strtol_hex (hNonempty : s ≠ []) (hDigits : ∀ c ∈ s, digit c < 16) :
    strtol 16 s = toInt (min (digits 16 s : Int) (2 ^ 63 - 1)) := by
  obtain ⟨a, s, rfl⟩ := List.exists_cons_of_ne_nil hNonempty
  have ha := hDigits a List.mem_cons_self
  have hBlank : ¬Blank a := not_blank_of_digit ha
  have hMinus : a ≠ 45 := by
    rintro rfl
    exact absurd ha (by decide)
  have hPlus : a ≠ 43 := by
    rintro rfl
    exact absurd ha (by decide)
  have hSkip : ((a :: s).dropWhile fun c => c = 32 ∨ (9 ≤ c.toNat ∧ c.toNat ≤ 13))
    = a :: s := by
    rw [List.dropWhile_cons, if_neg]
    exact fun h => hBlank (of_decide_eq_true h)
  rw [strtol, hSkip, ← strtolDigits_hex hDigits]
  simp [hMinus, hPlus]

theorem toInt_min (n : Nat) : toInt (min (n : Int) (2 ^ 63 - 1)) = n ↔ n < 2 ^ 31 := by
  unfold toInt
  omega

end Numbers

end Shutter.Gunzip
