import Mathlib.Data.List.Count
import Mathlib.Data.List.Induction

/-! Collections that a list of additions and removals builds from nothing.  A removal takes from a
set all entries with a key, and from a bag one copy of an entry. -/

namespace Shutter.Library

variable {α κ : Type*}

/-- An addition of an entry, or a removal by its key. -/
inductive Op (α κ : Type*) where
  | add (entry : α)
  | remove (key : κ)
deriving BEq, ReflBEq, LawfulBEq

/-! ### Sets -/

/-- The entry is added, and nothing behind that addition removes its key. -/
def Kept (key : α → κ) (ops : List (Op α κ)) (a : α) : Prop :=
  ∃ done rest, ops = done ++ .add a :: rest ∧ .remove (key a) ∉ rest

variable {key : α → κ} {ops : List (Op α κ)} {a b : α} {k : κ}

theorem Kept.mem (h : Kept key ops a) : .add a ∈ ops := by
  obtain ⟨done, rest, rfl, -⟩ := h
  simp

theorem not_kept_nil : ¬Kept key [] a := by
  rintro ⟨done, rest, h, -⟩
  simp at h

theorem Kept.concat {op : Op α κ} (h : Kept key ops a) (hOp : op ≠ .remove (key a)) :
    Kept key (ops ++ [op]) a := by
  obtain ⟨done, rest, rfl, hRest⟩ := h
  refine ⟨done, rest ++ [op], by simp, ?_⟩
  simp [hRest, hOp.symm]

theorem kept_concat {op : Op α κ} :
    Kept key (ops ++ [op]) a ↔ op = .add a ∨ Kept key ops a ∧ op ≠ .remove (key a) := by
  constructor
  · rintro ⟨done, rest, h, hRest⟩
    rcases List.eq_nil_or_concat rest with rfl | ⟨rest, last, rfl⟩
    · exact Or.inl (List.singleton_inj.mp (List.append_inj' h rfl).2)
    · rw [List.concat_eq_append, ← List.cons_append, ← List.append_assoc] at h
      obtain ⟨rfl, hLast⟩ := List.append_inj' h rfl
      obtain rfl := List.singleton_inj.mp hLast
      simp only [List.concat_eq_append, List.mem_append, List.mem_singleton, not_or] at hRest
      exact Or.inr ⟨⟨done, rest, rfl, hRest.1⟩, Ne.symm hRest.2⟩
  · rintro (rfl | ⟨hKept, hOp⟩)
    · exact ⟨ops, [], rfl, by simp⟩
    · exact hKept.concat hOp

theorem kept_concat_add : Kept key (ops ++ [.add b]) a ↔ a = b ∨ Kept key ops a := by
  simp [kept_concat, eq_comm]

theorem kept_concat_remove : Kept key (ops ++ [.remove k]) a ↔ Kept key ops a ∧
    key a ≠ k := by
  simp [kept_concat, eq_comm]

/-- Nothing is removed from a list of additions. -/
theorem kept_of_adds (h : ∀ k, .remove k ∉ ops) : Kept key ops a ↔ .add a ∈ ops := by
  constructor
  · exact Kept.mem
  · intro hMem
    obtain ⟨done, rest, rfl⟩ := List.append_of_mem hMem
    exact ⟨done, rest, rfl, fun hRest => h (key a) (by simp [hRest])⟩

/-! ### Bags -/

section Bags

variable [BEq α] {ops : List (Op α α)}

/-- What an operation leaves of a bag. -/
def Op.run (entries : List α) : Op α α → List α
  | .add a => a :: entries
  | .remove a => entries.erase a

/-- The bag that the operations build. -/
def bag (ops : List (Op α α)) : List α := ops.foldl Op.run []

/-- Behind some point of the list, the additions of the entry outnumber its removals. -/
def Surplus (ops : List (Op α α)) (a : α) : Prop :=
  ∃ rest, rest <:+ ops ∧ rest.count (.remove a) < rest.count (.add a)

theorem bag_concat (op : Op α α) : bag (ops ++ [op]) = op.run (bag ops) := by
  simp [bag]

variable [LawfulBEq α]

theorem le_count_bag (n : Nat) : n ≤ (bag ops).count a ↔
    ∃ rest, rest <:+ ops ∧ rest.count (.remove a) + n ≤ rest.count (.add a) := by
  induction ops using List.reverseRecOn generalizing n with
  | nil => simp [bag]
  | append_singleton ops op ih =>
    have hZero : ∃ rest, rest <:+ ops ++ [op] ∧
        rest.count (.remove a) + 0 ≤ rest.count (.add a) := ⟨[], by simp⟩
    rcases Nat.eq_zero_or_pos n with rfl | hPos
    · simpa using hZero
    have hSplit : (∃ rest, rest <:+ ops ++ [op] ∧
          rest.count (.remove a) + n ≤ rest.count (.add a)) ↔
        ∃ rest, rest <:+ ops ∧ (rest ++ [op]).count (.remove a) + n ≤
          (rest ++ [op]).count (.add a) := by
      constructor
      · rintro ⟨rest, hSuffix, hCount⟩
        rcases List.suffix_concat_iff.mp hSuffix with rfl | ⟨rest, rfl, hRest⟩
        · simp at hCount
          omega
        · exact ⟨rest, hRest, hCount⟩
      · rintro ⟨rest, hRest, hCount⟩
        exact ⟨rest ++ [op], List.suffix_concat_iff.mpr (Or.inr ⟨rest, rfl, hRest⟩), hCount⟩
    rw [hSplit, bag_concat]
    cases op with
    | add b =>
      by_cases hb : b = a
      · subst hb
        obtain ⟨n, rfl⟩ := Nat.exists_eq_succ_of_ne_zero (Nat.ne_of_gt hPos)
        have hAdd : n + 1 ≤ (Op.run (bag ops) (.add b)).count b ↔ n ≤ (bag ops).count b := by
          simp [Op.run]
        rw [hAdd, ih]
        simp [← Nat.add_assoc]
      · have hAdd : (Op.run (bag ops) (.add b)).count a = (bag ops).count a := by
          simp [Op.run, hb]
        rw [hAdd, ih]
        simp [hb]
    | remove b =>
      by_cases hb : b = a
      · subst hb
        have hRemove : n ≤ (Op.run (bag ops) (.remove b)).count b ↔
          n + 1 ≤ (bag ops).count b := by
          rw [Op.run, List.count_erase_self]
          omega
        rw [hRemove, ih]
        simp [Nat.add_assoc, Nat.add_comm 1]
      · have hRemove : (Op.run (bag ops) (.remove b)).count a = (bag ops).count a := by
          rw [Op.run, List.count_erase_of_ne (Ne.symm hb)]
        rw [hRemove, ih]
        simp [hb]

theorem mem_bag : a ∈ bag ops ↔ Surplus ops a := by
  rw [← List.one_le_count_iff, le_count_bag]
  rfl

theorem bag_ne_nil : bag ops ≠ [] ↔ ∃ a, Surplus ops a := by
  simp only [ne_eq, List.eq_nil_iff_forall_not_mem, not_forall, not_not, mem_bag]

theorem Surplus.mem (h : Surplus ops a) : .add a ∈ ops := by
  obtain ⟨rest, hRest, hCount⟩ := h
  exact hRest.subset (List.count_pos_iff.mp (Nat.zero_lt_of_lt hCount))

/-- A list of additions leaves all its entries in the bag. -/
theorem mem_bag_of_adds (h : ∀ b, .remove b ∉ ops) : a ∈ bag ops ↔ .add a ∈ ops := by
  rw [mem_bag]
  constructor
  · exact Surplus.mem
  · intro hMem
    refine ⟨ops, List.suffix_refl ops, ?_⟩
    rw [List.count_eq_zero.mpr (h a)]
    exact List.count_pos_iff.mpr hMem

end Bags

end Shutter.Library
