import Shutter.Library.Buffer

/-! Strings in arrays of bytes.  A string ends at the first zero of its array, a reader that finds
none fails, and so does a copy that leaves the array.  What a cleared array holds after copies
behind one another is the concatenation, as long as it fits with its terminator. -/

namespace Shutter.Library

/-- A cleared array. -/
def cleared (n : Nat) : List UInt8 := List.replicate n 0

/-- A copy with a terminator to the front. -/
def strcpy (a s : List UInt8) : Option (List UInt8) := store a 0 (s ++ [0])

/-- The array of `n` bytes that holds a string and is clear behind it. -/
def holding (n : Nat) (s : List UInt8) : List UInt8 := s ++ cleared (n - s.length)

variable {s bytes : List UInt8} {n : Nat}

theorem holding_nil : holding n ([] : List UInt8) = cleared n := by
  rw [holding, List.nil_append, List.length_nil, Nat.sub_zero]

theorem length_holding (h : s.length ≤ n) : (holding n s).length = n := by
  rw [holding, cleared, List.length_append, List.length_replicate]
  omega

theorem zero_mem_holding (hs : 0 ∉ s) : 0 ∈ holding n s ↔ s.length < n := by
  simp [holding, cleared, hs, Nat.sub_eq_zero_iff_le]

theorem store_holding (h : s.length ≤ n) (bytes : List UInt8) :
    store (holding n s) s.length bytes =
    if s.length + bytes.length ≤ n then some (holding n (s ++ bytes)) else none := by
  split
  next hLe =>
    rw [store_of_le (by rw [length_holding h]; exact hLe), holding, List.take_left,
      ← List.drop_drop, List.drop_left, cleared, List.drop_replicate, holding, cleared,
      List.length_append, Nat.sub_sub]
  next hLe => exact store_eq_none (by rw [length_holding h]; omega)

theorem store_cleared : store (cleared n) 0 bytes =
    if bytes.length ≤ n then some (holding n bytes) else none := by
  simpa [holding_nil] using store_holding (n := n) (s := []) (Nat.zero_le n) bytes

theorem holding_terminated (h : s.length < n) : holding n (s ++ [0]) = holding n s := by
  obtain ⟨k, hk⟩ := Nat.exists_eq_succ_of_ne_zero (Nat.sub_ne_zero_of_lt h)
  rw [holding, holding, List.length_append, List.length_singleton, ← Nat.sub_sub, hk,
    Nat.succ_sub_one, List.append_assoc, cleared, cleared, List.replicate_succ]
  rfl

theorem strcpy_cleared : strcpy (cleared n) s =
    if s.length < n then some (holding n s) else none := by
  rw [strcpy, store_cleared, List.length_append, List.length_singleton]
  split
  next h => rw [if_pos (by omega), holding_terminated (by omega)]
  next h => rw [if_neg (by omega)]

/-- The string in an array. -/
def text (a : List UInt8) : Option (List UInt8) :=
    if 0 ∈ a then some (a.takeWhile (· ≠ 0)) else none

/-- A copy to the terminator of the string. -/
def copyBehind (a bytes : List UInt8) : Option (List UInt8) := do
  let s ← text a
  store a s.length bytes

/-- A copy with a terminator to the terminator of the string. -/
def strcat (a s : List UInt8) : Option (List UInt8) := copyBehind a (s ++ [0])

theorem text_terminated (s rest : List UInt8) :
    text (s ++ 0 :: rest) = some (s.takeWhile (· ≠ 0)) := by
  rw [text, if_pos (by simp)]
  congr 1
  induction s with
  | nil => simp
  | cons b s ih => rw [List.cons_append, List.takeWhile_cons, List.takeWhile_cons, ih]

theorem takeWhile_ne_zero (hs : 0 ∉ s) : s.takeWhile (· ≠ 0) = s :=
  List.takeWhile_eq_self_iff.mpr fun _ hb => decide_eq_true fun heq => hs (heq ▸ hb)

theorem text_holding (hs : 0 ∉ s) :
    text (holding n s) = if s.length < n then some s else none := by
  unfold holding cleared
  split
  next hLt =>
    obtain ⟨k, hk⟩ := Nat.exists_eq_succ_of_ne_zero (Nat.sub_ne_zero_of_lt hLt)
    rw [hk, List.replicate_succ, text_terminated, takeWhile_ne_zero hs]
  next hLt =>
    rw [Nat.sub_eq_zero_of_le (Nat.not_lt.mp hLt), List.replicate_zero, List.append_nil, text,
      if_neg hs]

theorem copyBehind_holding (hs : 0 ∉ s) (h : s.length ≤ n) (bytes : List UInt8) :
    copyBehind (holding n s) bytes =
    if s.length < n ∧ s.length + bytes.length ≤ n then some (holding n (s ++ bytes))
    else none := by
  rw [copyBehind, text_holding hs]
  by_cases hLt : s.length < n
  · rw [if_pos hLt, Option.bind_eq_bind, Option.bind_some, store_holding h _]
    simp only [hLt, true_and]
  · rw [if_neg hLt, if_neg fun hBoth => hLt hBoth.1]
    rfl

/-- Copies behind one another build their concatenation, when it fits with the terminator. -/
theorem foldlM_copyBehind {pieces : List (List UInt8)} (hPieces : ∀ piece ∈ pieces, 0 ∉ piece)
    (hs : 0 ∉ s) (h : s.length ≤ n) : (pieces.foldlM copyBehind (holding n s) >>= text) =
      if (s ++ pieces.flatten).length < n then some (s ++ pieces.flatten) else none := by
  induction pieces generalizing s with
  | nil =>
    rw [List.flatten_nil, List.append_nil]
    exact text_holding hs
  | cons piece pieces ih =>
    rw [List.foldlM_cons, copyBehind_holding hs h _, List.flatten_cons, ← List.append_assoc]
    split
    next hFits =>
      refine ih (fun p hp => hPieces p (List.mem_cons_of_mem _ hp)) (fun hMem => ?_) ?_
      · rcases List.mem_append.mp hMem with hMem | hMem
        · exact hs hMem
        · exact hPieces piece List.mem_cons_self hMem
      · rw [List.length_append]
        exact hFits.2
    next hFits =>
      refine (if_neg fun hLt => hFits ?_).symm
      simp only [List.length_append] at hLt
      omega

theorem strcat_holding (hs : 0 ∉ s) (h : s.length ≤ n) (bytes : List UInt8) :
    strcat (holding n s) bytes =
    if s.length + bytes.length < n then some (holding n (s ++ bytes)) else none := by
  rw [strcat, copyBehind_holding hs h _, List.length_append, List.length_singleton]
  split
  next hFits => rw [if_pos (by omega), ← List.append_assoc, holding_terminated (by simp; omega)]
  next hFits => rw [if_neg (by omega)]

/-- Appended strings build their concatenation, when it fits with the terminator. -/
theorem foldlM_strcat {pieces : List (List UInt8)} (hPieces : ∀ piece ∈ pieces, 0 ∉ piece)
    (hs : 0 ∉ s) (h : s.length < n) : pieces.foldlM strcat (holding n s) =
      if (s ++ pieces.flatten).length <
        n then some (holding n (s ++ pieces.flatten)) else none := by
  induction pieces generalizing s with
  | nil =>
    rw [List.flatten_nil, List.append_nil, if_pos h]
    rfl
  | cons piece pieces ih =>
    rw [List.foldlM_cons, strcat_holding hs h.le _, List.flatten_cons, ← List.append_assoc]
    split
    next hFits =>
      refine ih (fun p hp => hPieces p (List.mem_cons_of_mem _ hp)) (fun hMem => ?_) ?_
      · rcases List.mem_append.mp hMem with hMem | hMem
        · exact hs hMem
        · exact hPieces piece List.mem_cons_self hMem
      · rw [List.length_append]
        exact hFits
    next hFits =>
      refine (if_neg fun hLt => hFits ?_).symm
      simp only [List.length_append] at hLt
      omega

end Shutter.Library
