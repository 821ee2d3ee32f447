import Mathlib.Data.Nat.ModEq
import Mathlib.Tactic.Ring

/-! Rows of bits, the numbers that they stand for with the lowest bit first, and the reversal of a
number of a fixed width. -/

namespace Shutter.Library

/-- The lowest `g` bits of `n` in reverse order. -/
def reverseBits : Nat → Nat → Nat
  | 0, _ => 0
  | g + 1, n => 2 ^ g * (n % 2) + reverseBits g (n / 2)

theorem reverseBits_lt (g n : Nat) : reverseBits g n < 2 ^ g := by
  induction g generalizing n with
  | zero => exact Nat.one_pos
  | succ g ih =>
    have hLow : n % 2 ≤ 1 := Nat.le_of_lt_succ (Nat.mod_lt _ Nat.two_pos)
    calc 2 ^ g * (n % 2) + reverseBits g (n / 2) < 2 ^ g * 1 + 2 ^ g :=
          Nat.add_lt_add_of_le_of_lt (Nat.mul_le_mul_left _ hLow) (ih _)
      _ = 2 ^ (g + 1) := by ring

/-- The lowest bits go to the top. -/
theorem reverseBits_add (a b n : Nat) :
    reverseBits (a + b) n = 2 ^ a * reverseBits b n + reverseBits a (n / 2 ^ b) := by
  induction b generalizing n with
  | zero => simp [reverseBits]
  | succ b ih =>
    rw [← Nat.add_assoc, reverseBits, ih, reverseBits, Nat.div_div_eq_div_mul, ← Nat.pow_succ']
    ring

section Parts

variable {g w m n : Nat}

theorem reverseBits_mod (h : w ≤ g) (n : Nat) :
    reverseBits g n % 2 ^ w = reverseBits w (n / 2 ^ (g - w)) := by
  have hSplit := reverseBits_add w (g - w) n
  rw [Nat.add_sub_cancel' h] at hSplit
  rw [hSplit, Nat.mul_add_mod, Nat.mod_eq_of_lt (reverseBits_lt _ _)]

theorem reverseBits_div (h : w ≤ g) (n : Nat) :
    reverseBits g n / 2 ^ w = reverseBits (g - w) n := by
  have hSplit := reverseBits_add w (g - w) n
  rw [Nat.add_sub_cancel' h] at hSplit
  rw [hSplit, Nat.mul_add_div (Nat.two_pow_pos w), Nat.div_eq_of_lt (reverseBits_lt _ _),
    Nat.add_zero]

theorem reverseBits_inj (hm : m < 2 ^ g) (hn : n < 2 ^ g)
    (h : reverseBits g m = reverseBits g n) : m = n := by
  induction g generalizing m n with
  | zero => omega
  | succ g ih =>
    unfold reverseBits at h
    have hLow := congrArg (· / 2 ^ g) h
    have hHigh := congrArg (· % 2 ^ g) h
    simp only [Nat.mul_add_div (Nat.two_pow_pos g), Nat.mul_add_mod,
      Nat.div_eq_of_lt (reverseBits_lt _ _), Nat.mod_eq_of_lt (reverseBits_lt _ _)] at hLow hHigh
    have hHalf : m / 2 = n / 2 := ih (by omega) (by omega) hHigh
    omega

theorem reverseBits_mod_self (g n : Nat) : reverseBits g (n % 2 ^ g) = reverseBits g n := by
  induction g generalizing n with
  | zero => rfl
  | succ g ih =>
    have hLow : n % 2 ^ (g + 1) % 2 = n % 2 :=
      Nat.mod_mod_of_dvd n ⟨2 ^ g, Nat.pow_succ'⟩
    have hHalf : n % 2 ^ (g + 1) / 2 = n / 2 % 2 ^ g := by
      rw [Nat.pow_succ', Nat.mod_mul_right_div_self]
    rw [reverseBits, reverseBits, hLow, hHalf, ih]

theorem reverseBits_reverseBits (h : n < 2 ^ g) : reverseBits g (reverseBits g n) = n := by
  induction g generalizing n with
  | zero => exact (Nat.lt_one_iff.mp h).symm
  | succ g ih =>
    have hSplit := reverseBits_add 1 g (reverseBits (g + 1) n)
    rw [Nat.add_comm 1 g] at hSplit
    have hTop : reverseBits (g + 1) n / 2 ^ g = n % 2 := by
      rw [reverseBits, Nat.mul_add_div (Nat.two_pow_pos g), Nat.div_eq_of_lt (reverseBits_lt _ _),
        Nat.add_zero]
    have hRest : reverseBits g (reverseBits (g + 1) n) = n / 2 := by
      rw [← reverseBits_mod_self, reverseBits, Nat.mul_add_mod, reverseBits_mod_self,
        ih (by omega)]
    rw [hSplit, hTop, hRest]
    simp only [reverseBits]
    omega

/-- The lowest bits of two reversals are the highest bits of the numbers. -/
theorem reverseBits_mod_eq_iff (hw : w ≤ g) (hm : m < 2 ^ g) (hn : n < 2 ^ g) :
    reverseBits g m % 2 ^ w = reverseBits g n % 2 ^ w ↔ m / 2 ^ (g - w) = n / 2 ^ (g - w) := by
  have hTop : ∀ {k}, k < 2 ^ g → k / 2 ^ (g - w) < 2 ^ w := fun {k} hk => by
    rw [Nat.div_lt_iff_lt_mul (Nat.two_pow_pos _), ← Nat.pow_add, Nat.add_sub_cancel' hw]
    exact hk
  rw [reverseBits_mod hw, reverseBits_mod hw]
  exact ⟨reverseBits_inj (hTop hm) (hTop hn), fun h => congrArg _ h⟩

theorem reverseBits_zero (g : Nat) : reverseBits g 0 = 0 := by
  induction g with
  | zero => rfl
  | succ g ih => rw [reverseBits, Nat.zero_mod, Nat.mul_zero, Nat.zero_add, Nat.zero_div, ih]

/-- The reversal of a multiple of a power of 2 has zeros at the top. -/
theorem reverseBits_lt_of_dvd (hw : w ≤ g) (h : 2 ^ (g - w) ∣ n) : reverseBits g n < 2 ^ w := by
  have hZero : reverseBits (g - w) n = 0 := by
    rw [← reverseBits_mod_self, Nat.mod_eq_zero_of_dvd h, reverseBits_zero]
  have hDiv := reverseBits_div hw n
  rw [hZero] at hDiv
  exact Nat.lt_of_not_le fun hLe => absurd hDiv (Nat.ne_of_gt (Nat.div_pos hLe (Nat.two_pow_pos w)))

end Parts

/-! ### Rows of bits -/

/-- The number that the bits stand for, with the lowest bit first. -/
def ofBits : List Bool → Nat
  | [] => 0
  | b :: bits => b.toNat + 2 * ofBits bits

/-- The lowest `n` bits of `x`, the lowest first. -/
def bitsOf : Nat → Nat → List Bool
  | 0, _ => []
  | n + 1, x => (x % 2 == 1) :: bitsOf n (x / 2)

/-- The lowest `n` bits of `x`, the highest first. -/
def codeBits (n x : Nat) : List Bool := (bitsOf n x).reverse

@[simp] theorem bitsOf_length (n x : Nat) : (bitsOf n x).length = n := by
  induction n generalizing x with
  | zero => rfl
  | succ n ih => rw [bitsOf, List.length_cons, ih]

@[simp] theorem codeBits_length (n x : Nat) : (codeBits n x).length = n := by
  rw [codeBits, List.length_reverse, bitsOf_length]

theorem ofBits_append (bits bits' : List Bool) :
    ofBits (bits ++ bits') = ofBits bits + 2 ^ bits.length * ofBits bits' := by
  induction bits with
  | nil => simp [ofBits]
  | cons b bits ih =>
    rw [List.cons_append, ofBits, ih, ofBits, List.length_cons]
    ring

theorem ofBits_lt (bits : List Bool) : ofBits bits < 2 ^ bits.length := by
  induction bits with
  | nil => exact Nat.one_pos
  | cons b bits ih =>
    have hBit : b.toNat ≤ 1 := Bool.toNat_le b
    rw [ofBits, List.length_cons, Nat.pow_succ]
    omega

theorem ofBits_take {n : Nat} {bits : List Bool} (h : n ≤ bits.length) :
    ofBits (bits.take n) = ofBits bits % 2 ^ n := by
  have hSplit := ofBits_append (bits.take n) (bits.drop n)
  have hLt := ofBits_lt (bits.take n)
  rw [List.length_take_of_le h] at hSplit hLt
  rw [List.take_append_drop] at hSplit
  rw [hSplit, Nat.add_mul_mod_self_left, Nat.mod_eq_of_lt hLt]

theorem ofBits_drop {n : Nat} {bits : List Bool} (h : n ≤ bits.length) :
    ofBits (bits.drop n) = ofBits bits / 2 ^ n := by
  have hSplit := ofBits_append (bits.take n) (bits.drop n)
  have hLt := ofBits_lt (bits.take n)
  rw [List.length_take_of_le h] at hSplit hLt
  rw [List.take_append_drop] at hSplit
  rw [hSplit, Nat.add_mul_div_left _ _ (Nat.two_pow_pos n), Nat.div_eq_of_lt hLt, Nat.zero_add]

theorem toNat_mod_two (x : Nat) : (x % 2 == 1).toNat = x % 2 := by
  rcases Nat.mod_two_eq_zero_or_one x with h | h <;> rw [h] <;> rfl

theorem ofBits_bitsOf (n x : Nat) : ofBits (bitsOf n x) = x % 2 ^ n := by
  induction n generalizing x with
  | zero => rw [Nat.pow_zero, Nat.mod_one]; rfl
  | succ n ih => rw [bitsOf, ofBits, ih, toNat_mod_two, Nat.pow_succ', Nat.mod_mul]

theorem ofBits_codeBits (n x : Nat) : ofBits (codeBits n x) = reverseBits n x := by
  induction n generalizing x with
  | zero => rfl
  | succ n ih =>
    have hCode : codeBits (n + 1) x = codeBits n (x / 2) ++ [x % 2 == 1] := List.reverse_cons
    rw [hCode, ofBits_append, ih, codeBits_length, reverseBits, ofBits, toNat_mod_two, ofBits]
    ring

theorem bitsOf_append (m n x : Nat) : bitsOf (m + n) x = bitsOf m x ++ bitsOf n (x / 2 ^ m) := by
  induction m generalizing x with
  | zero => simp [bitsOf]
  | succ m ih =>
    rw [Nat.succ_add, bitsOf, ih, bitsOf, List.cons_append, Nat.div_div_eq_div_mul,
      ← Nat.pow_succ']

theorem bitsOf_mod (n x : Nat) : bitsOf n (x % 2 ^ n) = bitsOf n x := by
  induction n generalizing x with
  | zero => rfl
  | succ n ih =>
    have hLow : x % 2 ^ (n + 1) % 2 = x % 2 := Nat.mod_mod_of_dvd x ⟨2 ^ n, Nat.pow_succ'⟩
    have hHalf : x % 2 ^ (n + 1) / 2 = x / 2 % 2 ^ n := by
      rw [Nat.pow_succ', Nat.mod_mul_right_div_self]
    rw [bitsOf, bitsOf, hLow, hHalf, ih]

end Shutter.Library
