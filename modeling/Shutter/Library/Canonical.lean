import Shutter.Library.Bits

/-! Canonical prefix codes.  The lengths of the codes determine them: the codes of a length follow
those of the shorter ones, in the order of their values. -/

namespace Shutter.Library

/-- The first code of length `k`. -/
def firstCode (b : List Nat) : Nat → Nat
  | 0 => 0
  | k + 1 => 2 * (firstCode b k + if k = 0 then 0 else b.count k)

/-- The length of the code of `v`, or 0 if `v` has none. -/
def codeLength (b : List Nat) (v : Nat) : Nat := b[v]?.getD 0

/-- The code of `v` as a number. -/
def codeOf (b : List Nat) (v : Nat) : Nat :=
  firstCode b (codeLength b v) + (b.take v).count (codeLength b v)

/-- The code of `v`. -/
def codeword (b : List Nat) (v : Nat) : List Bool := codeBits (codeLength b v) (codeOf b v)

/-- The number of patterns of `max` bits that begin with a code. -/
def kraft (max : Nat) (b : List Nat) : Nat :=
  (b.map fun k => if k = 0 then 0 else 2 ^ (max - k)).sum

/-- The values in the order of their codes, whose lengths are up to `max`. -/
def inOrder (max : Nat) (b : List Nat) : List Nat :=
  (List.range' 1 max).flatMap fun k => (List.range b.length).filter fun i => b[i]? = some k

section InOrder

variable {b : List Nat} {v max k : Nat}

@[simp] theorem codeword_length (b : List Nat) (v : Nat) :
    (codeword b v).length = codeLength b v := codeBits_length _ _

theorem filter_range_take (b : List Nat) (k : Nat) {n : Nat} (h : n ≤ b.length) :
    ((List.range n).filter fun i => b[i]? = some k).length = (b.take n).count k := by
  induction n with
  | zero => rfl
  | succ n ih =>
    have hHere : b[n]? = some b[n] := List.getElem?_eq_getElem h
    rw [List.range_succ, List.filter_append, List.length_append, ih (Nat.le_of_succ_le h),
      List.take_add_one, hHere, List.count_append]
    by_cases hSame : b[n] = k <;> simp [hHere, hSame]

theorem filter_range_count (b : List Nat) (k : Nat) :
    ((List.range b.length).filter fun i => b[i]? = some k).length = b.count k := by
  rw [filter_range_take b k (Nat.le_refl _), List.take_length]

/-- A value is behind those of the same length before it. -/
theorem filter_range_drop (h : codeLength b v = k) (hv : v < b.length) :
    ∃ rest, ((List.range b.length).filter fun i => b[i]? = some k).drop ((b.take v).count k) =
      v :: rest := by
  have hHere : b[v]? = some k := by
    have hSome : b[v]? = some b[v] := List.getElem?_eq_getElem hv
    rw [codeLength, hSome] at h
    rw [hSome, ← h]
    rfl
  have hSplit : List.range b.length = List.range v ++ v :: List.range' (v + 1)
    (b.length - (v + 1)) := by
    have hAll : b.length = v + (1 + (b.length - (v + 1))) := by omega
    conv_lhs => rw [hAll]
    rw [List.range_eq_range', ← List.range'_append_1, ← List.range_eq_range', Nat.zero_add,
      Nat.add_comm 1,
      List.range'_succ]
  rw [hSplit, List.filter_append, List.drop_left' (filter_range_take b k (Nat.le_of_lt hv))]
  exact ⟨_, List.filter_cons_of_pos (by simpa using hHere)⟩

theorem mem_inOrder (h : v ∈ inOrder max b) : v < b.length ∧ 0 < codeLength b v := by
  obtain ⟨k, hk, hMem⟩ := List.mem_flatMap.mp h
  obtain ⟨hv, hHere⟩ := List.mem_filter.mp hMem
  have hSome : b[v]? = some k := by simpa using hHere
  refine ⟨List.mem_range.mp hv, ?_⟩
  rw [codeLength, hSome]
  exact (List.mem_range'_1.mp hk).1

theorem flatMap_drop {α β : Type*} (f : α → List β) (l l' : List α) (n : Nat) :
    ((l ++ l').flatMap f).drop ((l.flatMap f).length + n) = (l'.flatMap f).drop n := by
  rw [List.flatMap_append, ← List.drop_drop, List.drop_left]

/-- The number of codes of lengths from 1 up to `k`. -/
theorem inOrder_length (b : List Nat) (k : Nat) :
    (inOrder k b).length = ((List.range' 1 k).map fun j => b.count j).sum := by
  rw [inOrder, List.length_flatMap]
  exact congrArg List.sum (List.map_congr_left fun j _ => filter_range_count b j)

/-- The place of a value among those in order. -/
theorem inOrder_drop (hv : v < b.length) (hk : codeLength b v = k + 1) (hMax : k < max) :
    ∃ rest, (inOrder max b).drop ((inOrder k b).length + (b.take v).count (k + 1)) =
      v :: rest := by
  have hSplit : List.range' 1 max = List.range' 1 k ++ List.range' (1 + k) (max - k) := by
    rw [List.range'_append_1, Nat.add_sub_cancel' (Nat.le_of_lt hMax)]
  have hNext : List.range' (1 + k) (max - k) = (k + 1) :: List.range' (k + 2) (max - k - 1) := by
    obtain ⟨m, hm⟩ : ∃ m, max - k = m + 1 := ⟨max - k - 1, by omega⟩
    rw [hm, List.range'_succ, Nat.add_comm 1 k]
    rfl
  obtain ⟨rest, hRest⟩ := filter_range_drop hk hv
  unfold inOrder
  rw [hSplit, flatMap_drop, hNext, List.flatMap_cons, List.drop_append_of_le_length, hRest]
  · exact ⟨_, rfl⟩
  · rw [filter_range_count]
    exact (List.take_sublist v b).count_le _

end InOrder

end Shutter.Library
