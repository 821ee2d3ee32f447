import Mathlib.Data.List.Basic
import Mathlib.Data.List.TakeWhile

/-! Arrays of a fixed size.  A copy into an array is a write of consecutive elements, which fails
when one of them is outside. -/

namespace Shutter.Library

variable {α : Type*}

/-- The array with `bytes` from index `i` on. -/
def store (buf : List α) (i : Nat) (bytes : List α) : Option (List α) :=
  if i + bytes.length ≤ buf.length then
    some (buf.take i ++ bytes ++ buf.drop (i + bytes.length))
  else none

variable {buf buf' bytes : List α} {i : Nat}

theorem store_of_le (h : i + bytes.length ≤ buf.length) :
    store buf i bytes = some (buf.take i ++ bytes ++ buf.drop (i + bytes.length)) := if_pos h

theorem store_eq_none (h : buf.length < i + bytes.length) : store buf i bytes = none :=
  if_neg (Nat.not_le.mpr h)

theorem store_zero (h : bytes.length ≤ buf.length) :
    store buf 0 bytes = some (bytes ++ buf.drop bytes.length) := by
  rw [store_of_le (by omega), List.take_zero, List.nil_append, Nat.zero_add]

/-- A write into a gap between two parts of the array. -/
theorem store_gap (front gap back bytes : List α) (h : bytes.length ≤ gap.length) :
    store (front ++ (gap ++ back)) front.length bytes =
      some (front ++ bytes ++ (gap.drop bytes.length ++ back)) := by
  rw [store_of_le (by simp only [List.length_append]; omega), List.take_left',
    List.drop_append, List.drop_eq_nil_of_le (by omega), Nat.add_sub_cancel_left,
    List.drop_append_of_le_length h, List.nil_append]
  rfl

end Shutter.Library
