import Mathlib.Data.List.Infix
import Mathlib.Data.List.Perm.Basic
import Mathlib.Data.List.Nodup
import Mathlib.Data.List.Range
import Mathlib.Data.List.ProdSigma

/-! The places of words in a text: which word starts at which offset.  One more letter adds a place
for each word that the longer text ends with. -/

namespace Shutter.Library

open scoped List

variable {α : Type*} [DecidableEq α]

/-- The pairs of a word of the list and an offset at which the text has the word. -/
def placements (words : List (List α)) (t : List α) : List (List α × Nat) :=
  (words.product (List.range t.length)).filter fun pair => pair.1 <+: t.drop pair.2

/-- The offsets at which the text has the word. -/
def offsets (word t : List α) : List Nat :=
  (List.range t.length).filter fun i => word <+: t.drop i

@[simp] theorem mem_offsets {word t : List α} {i : Nat} :
    i ∈ offsets word t ↔ i < t.length ∧ word <+: t.drop i := by
  simp [offsets]

theorem nodup_offsets (word t : List α) : (offsets word t).Nodup :=
  List.nodup_range.filter _

theorem placements_cons (word : List α) (words : List (List α)) (t : List α) :
    placements (word :: words) t = (offsets word t).map (word, ·) ++ placements words t := by
  simp [placements, offsets, List.product, List.filter_append, List.filter_map, Function.comp_def]

theorem placements_nil (words : List (List α)) : placements words [] = [] := by
  induction words with
  | nil => rfl
  | cons word words ih =>
    rw [placements_cons, ih]
    rfl

/-- A word starts in the longer text where it starts in the text, and where it reaches the new
end. -/
theorem mem_offsets_concat {word t : List α} {a : α} {i : Nat} (hWord : word ≠ []) :
    i ∈ offsets word (t ++ [a]) ↔
      i ∈ offsets word t ∨ word <:+ t ++ [a] ∧ i = t.length + 1 - word.length := by
  have hEnd : i ≤ t.length → (word = t.drop i ++ [a] ↔
      word <:+ t ++ [a] ∧ i = t.length + 1 - word.length) := by
    intro hi
    rw [← List.drop_append_of_le_length hi]
    constructor
    · intro h
      refine ⟨h ▸ List.drop_suffix i _, ?_⟩
      rw [h, List.length_drop, List.length_append, List.length_singleton]
      omega
    · rintro ⟨hSuffix, rfl⟩
      simpa using List.suffix_iff_eq_drop.mp hSuffix
  rw [mem_offsets, mem_offsets, List.length_append, List.length_singleton]
  constructor
  · rintro ⟨hi, hPrefix⟩
    have hLe : i ≤ t.length := by omega
    rw [List.drop_append_of_le_length hLe, List.prefix_concat_iff, hEnd hLe] at hPrefix
    rcases hPrefix with hNew | hOld
    · exact Or.inr hNew
    · have hLength := hOld.length_le
      have hPos := List.length_pos_iff.mpr hWord
      rw [List.length_drop] at hLength
      exact Or.inl ⟨by omega, hOld⟩
  · rintro (⟨hi, hPrefix⟩ | hNew)
    · refine ⟨by omega, ?_⟩
      rw [List.drop_append_of_le_length (by omega)]
      exact hPrefix.trans (List.prefix_append _ _)
    · have hPos := List.length_pos_iff.mpr hWord
      have hLe : i ≤ t.length := by omega
      refine ⟨by omega, ?_⟩
      rw [List.drop_append_of_le_length hLe, ← (hEnd hLe).mpr hNew]

theorem offsets_concat {word t : List α} {a : α} (hWord : word ≠ []) :
    offsets word (t ++ [a]) ~
      offsets word t ++ if word <:+ t ++ [a] then [t.length + 1 - word.length] else [] := by
  have hNotOld : word <:+ t ++ [a] → t.length + 1 - word.length ∉ offsets word t := by
    intro hSuffix hMem
    obtain ⟨hi, hPrefix⟩ := mem_offsets.mp hMem
    have hLength := hPrefix.length_le
    have hWhole := hSuffix.length_le
    rw [List.length_drop] at hLength
    rw [List.length_append, List.length_singleton] at hWhole
    omega
  refine (List.perm_ext_iff_of_nodup (nodup_offsets _ _) ?_).mpr fun i => ?_
  · split
    · rename_i hSuffix
      exact List.nodup_append.mpr ⟨nodup_offsets _ _, List.nodup_singleton _, fun i hi j hj => by
        obtain rfl := List.mem_singleton.mp hj
        exact fun heq => hNotOld hSuffix (heq ▸ hi)⟩
    · rw [List.append_nil]
      exact nodup_offsets _ _
  · rw [mem_offsets_concat hWord, List.mem_append]
    split <;> simp [*]

/-- One more letter adds a place for each word that ends with it. -/
theorem placements_concat {words : List (List α)} (hWords : ∀ word ∈ words, word ≠ [])
    (t : List α) (a : α) :
    placements words (t ++ [a]) ~ placements words t ++
      (words.filter (· <:+ t ++ [a])).map fun word => (word, t.length + 1 - word.length) := by
  induction words with
  | nil => rfl
  | cons word words ih =>
    have hRest := ih fun w hw => hWords w (List.mem_cons_of_mem _ hw)
    have hHead := (offsets_concat (t := t) (a := a) (hWords word List.mem_cons_self)).map
      (word, ·)
    rw [placements_cons, placements_cons]
    refine (hHead.append hRest).trans ?_
    rw [List.map_append, List.append_assoc, List.append_assoc]
    refine List.Perm.append_left _ ?_
    rw [List.filter_cons]
    by_cases hSuffix : word <:+ t ++ [a]
    · simpa [hSuffix] using List.perm_middle.symm
    · simp [hSuffix]

end Shutter.Library
