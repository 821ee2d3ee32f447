import Mathlib.Data.List.Infix

/-! The first occurrence of a list in another, and what elements behind the other one change about
it: nothing when there is an occurrence, and when there is none the next one lies behind the first
element that the pattern does not have. -/

namespace Shutter.Library

variable {α : Type*} {needle s v : List α} {d : α}

/-- A prefix without the element `d` ends before it. -/
theorem prefix_of_not_mem (hd : d ∉ needle) (h : needle <+: s ++ d :: v) : needle <+: s := by
  rcases List.prefix_or_prefix_of_prefix h (List.prefix_append s (d :: v)) with hLe | hLe
  · exact hLe
  · obtain ⟨rest, rfl⟩ := hLe
    cases rest with
    | nil => simp
    | cons c rest =>
      rw [List.prefix_append_right_inj, List.cons_prefix_cons] at h
      simp [h.1] at hd

variable [DecidableEq α]

/-- Where `needle` first occurs. -/
def occurrence (needle : List α) : List α → Option Nat
  | [] => if needle = [] then some 0 else none
  | c :: s => if needle <+: c :: s then some 0 else (occurrence needle s).map (· + 1)

theorem occurrence_of_start (h : needle <+: s) : occurrence needle s = some 0 := by
  cases s with
  | nil => exact if_pos (List.prefix_nil.mp h)
  | cons c s => exact if_pos h

theorem occurrence_eq_none : occurrence needle s = none ↔ ¬needle <:+: s := by
  induction s with
  | nil =>
    rw [List.infix_nil]
    unfold occurrence
    split <;> simp [*]
  | cons c s ih =>
    rw [List.infix_cons_iff]
    unfold occurrence
    split <;> simp [*]

theorem occurrence_isSome : (occurrence needle s).isSome ↔ needle <:+: s := by
  rw [← not_iff_not, ← occurrence_eq_none]
  simp

theorem occurrence_start {i : Nat} (h : occurrence needle s = some i) : needle <+: s.drop i := by
  induction s generalizing i with
  | nil =>
    unfold occurrence at h
    split at h
    · rename_i hNil
      rw [hNil]
      exact List.nil_prefix
    · cases h
  | cons c s ih =>
    unfold occurrence at h
    split at h
    · obtain rfl := Option.some.inj h
      assumption
    · obtain ⟨j, hj, rfl⟩ := Option.map_eq_some_iff.mp h
      exact ih hj

theorem occurrence_le {i : Nat} (h : occurrence needle s = some i) :
    i + needle.length ≤ s.length := by
  induction s generalizing i with
  | nil =>
    unfold occurrence at h
    split at h
    · rename_i hNil
      obtain rfl := Option.some.inj h
      simp [hNil]
    · cases h
  | cons c s ih =>
    unfold occurrence at h
    split at h
    · rename_i hPrefix
      obtain rfl := Option.some.inj h
      simpa using hPrefix.length_le
    · obtain ⟨j, hj, rfl⟩ := Option.map_eq_some_iff.mp h
      have := ih hj
      rw [List.length_cons]
      omega

theorem occurrence_append {i : Nat} (h : occurrence needle s = some i) (v : List α) :
    occurrence needle (s ++ v) = some i := by
  induction s generalizing i with
  | nil =>
    unfold occurrence at h
    split at h
    · rename_i hNil
      rw [← h, hNil]
      exact occurrence_of_start List.nil_prefix
    · cases h
  | cons c s ih =>
    unfold occurrence at h
    rw [List.cons_append]
    split at h
    · rename_i hPrefix
      rw [← h]
      exact occurrence_of_start (hPrefix.trans (List.prefix_append (c :: s) v))
    · rename_i hNot
      obtain ⟨j, hj, rfl⟩ := Option.map_eq_some_iff.mp h
      have hFit := occurrence_le hj
      have hLonger : ¬needle <+: c :: (s ++ v) := by
        intro hPrefix
        refine hNot (List.prefix_of_prefix_length_le hPrefix (List.prefix_append (c :: s) v) ?_)
        rw [List.length_cons]
        omega
      rw [occurrence, if_neg hLonger, ih hj]
      rfl

/-- Without an occurrence, the next one is behind an element that the pattern does not have. -/
theorem occurrence_append_cons (hNone : ¬needle <:+: s) (hd : d ∉ needle) (v : List α) :
    occurrence needle (s ++ d :: v) = (occurrence needle v).map (s.length + 1 + ·) := by
  induction s with
  | nil =>
    have hNot : ¬needle <+: d :: v := by
      intro hPrefix
      have hNil := prefix_of_not_mem (s := []) hd hPrefix
      exact hNone hNil.isInfix
    rw [List.nil_append, occurrence, if_neg hNot]
    simp [Nat.add_comm]
  | cons c s ih =>
    rw [List.infix_cons_iff, not_or] at hNone
    have hNot : ¬needle <+: c :: (s ++ d :: v) := by
      intro hPrefix
      exact hNone.1 (prefix_of_not_mem (s := c :: s) hd hPrefix)
    rw [List.cons_append, occurrence, if_neg hNot, ih hNone.2, Option.map_map]
    congr 1
    funext i
    simp only [Function.comp_apply, List.length_cons]
    omega

theorem occurrence_singleton_append (h : d ∉ s) (v : List α) :
    occurrence [d] (s ++ v) = (occurrence [d] v).map (s.length + ·) := by
  induction s with
  | nil => simp
  | cons c s ih =>
    rw [List.mem_cons, not_or] at h
    have hNot : ¬[d] <+: c :: (s ++ v) := by
      intro hPrefix
      exact h.1 (List.cons_prefix_cons.mp hPrefix).1
    rw [List.cons_append, occurrence, if_neg hNot, ih h.2, Option.map_map]
    congr 1
    funext i
    simp only [Function.comp_apply, List.length_cons]
    omega

end Shutter.Library
