import Mathlib.Data.List.Infix
import Mathlib.Data.List.ProdSigma

/-! The longest suffix of a word that lies in a given set of words.  For a set that is closed under
prefixes, the longest suffix of a word extends by one letter without rereading the word, so a scan
of a text keeps it as its state.  `occurrences` counts the ends of words in a text. -/

namespace Shutter.Library

variable {α : Type*}

section Longest

variable (V : List α → Prop) [DecidablePred V]

/-- The longest suffix of a word in `V`, and the empty word when no suffix is in `V`. -/
def longestSuffix : List α → List α
  | [] => []
  | a :: w => if V (a :: w) then a :: w else longestSuffix w

theorem longestSuffix_suffix (w : List α) : longestSuffix V w <:+ w := by
  induction w with
  | nil => exact List.suffix_rfl
  | cons a w ih =>
    unfold longestSuffix
    split
    · exact List.suffix_rfl
    · exact ih.trans (List.suffix_cons a w)

theorem longestSuffix_length_le (w : List α) : (longestSuffix V w).length ≤ w.length :=
  (longestSuffix_suffix V w).length_le

variable {V}

theorem longestSuffix_mem (hNil : V []) (w : List α) : V (longestSuffix V w) := by
  induction w with
  | nil => exact hNil
  | cons a w ih =>
    unfold longestSuffix
    split
    · assumption
    · exact ih

@[simp] theorem longestSuffix_of_mem {w : List α} (h : V w) : longestSuffix V w = w := by
  cases w with
  | nil => rfl
  | cons a w => rw [longestSuffix, if_pos h]

/-- Every suffix in `V` is a suffix of the longest one. -/
theorem suffix_longestSuffix {v w : List α} (hv : V v) (h : v <:+ w) :
    v <:+ longestSuffix V w := by
  induction w with
  | nil => exact h
  | cons a w ih =>
    unfold longestSuffix
    split
    · exact h
    · rename_i hw
      rcases List.suffix_cons_iff.mp h with rfl | h
      · exact absurd hv hw
      · exact ih h

theorem suffix_longestSuffix_iff {v w : List α} (hv : V v) :
    v <:+ longestSuffix V w ↔ v <:+ w :=
  ⟨fun h => h.trans (longestSuffix_suffix V w), suffix_longestSuffix hv⟩

/-- A suffix of `w` that is in `V` and is a suffix of no longer one is the longest. -/
theorem longestSuffix_eq (hNil : V []) {v w : List α} (hv : V v) (h : v <:+ w)
    (hMax : ∀ u, V u → u <:+ w → u <:+ v) : longestSuffix V w = v :=
  (hMax _ (longestSuffix_mem hNil w) (longestSuffix_suffix V w)).eq_of_length_le
    (suffix_longestSuffix hv h).length_le

theorem longestSuffix_congr {V' : List α → Prop} [DecidablePred V'] (h : ∀ w, V w ↔ V' w)
    (w : List α) : longestSuffix V w = longestSuffix V' w := by
  induction w with
  | nil => rfl
  | cons a w ih => exact if_congr (h (a :: w)) rfl ih

section Closed

variable (hNil : V []) (hClosed : ∀ {w : List α} {a : α}, V (w ++ [a]) → V w)
include hNil hClosed

/-- The longest suffix after one more letter depends on the longest suffix so far only. -/
theorem longestSuffix_concat (w : List α) (a : α) :
    longestSuffix V (w ++ [a]) = longestSuffix V (longestSuffix V w ++ [a]) := by
  refine longestSuffix_eq hNil (longestSuffix_mem hNil _) ?_ fun u hu h => ?_
  · exact (longestSuffix_suffix V _).trans
      (List.suffix_append_self_iff.mpr (longestSuffix_suffix V w))
  · refine suffix_longestSuffix hu ?_
    rcases List.suffix_concat_iff.mp h with rfl | ⟨v, rfl, hv⟩
    · exact List.nil_suffix
    · exact List.suffix_append_self_iff.mpr (suffix_longestSuffix (hClosed hu) hv)

end Closed

end Longest

/-! ### Prefixes of words -/

/-- `w` is empty or begins a word of the list. -/
def PrefixOfSome (words : List (List α)) (w : List α) : Prop := w = [] ∨
    ∃ p ∈ words, w <+: p

theorem PrefixOfSome.nil {words : List (List α)} : PrefixOfSome words [] := Or.inl rfl

theorem PrefixOfSome.of_mem {words : List (List α)} {p : List α} (h : p ∈ words) :
    PrefixOfSome words p :=
  Or.inr ⟨p, h, List.prefix_rfl⟩

theorem PrefixOfSome.of_prefix {words : List (List α)} {v w : List α}
    (h : PrefixOfSome words w) (hv : v <+: w) : PrefixOfSome words v := by
  rcases h with rfl | ⟨p, hp, h⟩
  · exact Or.inl (List.prefix_nil.mp hv)
  · exact Or.inr ⟨p, hp, hv.trans h⟩

theorem PrefixOfSome.init {words : List (List α)} {w : List α} {a : α}
    (h : PrefixOfSome words (w ++ [a])) : PrefixOfSome words w :=
  h.of_prefix (List.prefix_append w [a])

/-- The prefixes of one more word: those of a prefix `u` of it that is one already, and the
extensions of `u` along the rest of the word. -/
theorem prefixOfSome_concat_iff {words : List (List α)} {u v w : List α}
    (hu : PrefixOfSome words u) :
    PrefixOfSome (words ++ [u ++ v]) w ↔ PrefixOfSome words w ∨ ∃ q, q <+: v ∧
      w = u ++ q := by
  constructor
  · rintro (rfl | ⟨p, hp, h⟩)
    · exact Or.inl PrefixOfSome.nil
    · rcases List.mem_append.mp hp with hp | hp
      · exact Or.inl (Or.inr ⟨p, hp, h⟩)
      · obtain rfl := List.mem_singleton.mp hp
        rcases List.prefix_or_prefix_of_prefix h (List.prefix_append u v) with h' | ⟨q, rfl⟩
        · exact Or.inl (hu.of_prefix h')
        · exact Or.inr ⟨q, (List.prefix_append_right_inj u).mp h, rfl⟩
  · rintro ((rfl | ⟨p, hp, h⟩) | ⟨q, hq, rfl⟩)
    · exact PrefixOfSome.nil
    · exact Or.inr ⟨p, List.mem_append_left _ hp, h⟩
    · exact Or.inr ⟨u ++ v, by simp, (List.prefix_append_right_inj u).mpr hq⟩

variable [DecidableEq α]

instance (words : List (List α)) : DecidablePred (PrefixOfSome words) := fun w =>
  inferInstanceAs (Decidable (w = [] ∨ ∃ p ∈ words, w <+: p))

/-- The longest suffix of a text that begins a word of the list. -/
def longestPrefix (words : List (List α)) (t : List α) : List α :=
  longestSuffix (PrefixOfSome words) t

/-- Texts with the same longest prefix keep it behind the same bytes. -/
theorem longestPrefix_append_congr {words : List (List α)} {u u' : List α}
    (h : longestPrefix words u = longestPrefix words u') (v : List α) :
    longestPrefix words (u ++ v) = longestPrefix words (u' ++ v) := by
  induction v using List.reverseRecOn with
  | nil => simpa using h
  | append_singleton v a ih =>
    unfold longestPrefix at ih ⊢
    rw [← List.append_assoc, ← List.append_assoc,
      longestSuffix_concat PrefixOfSome.nil PrefixOfSome.init, ih,
      ← longestSuffix_concat PrefixOfSome.nil PrefixOfSome.init]

/-- A suffix that is as long as the longest prefix has the same one. -/
theorem longestPrefix_of_suffix {words : List (List α)} {v w : List α} (h : v <:+ w)
    (hLong : (longestPrefix words w).length ≤ v.length) :
    longestPrefix words v = longestPrefix words w := by
  have hLive : longestPrefix words w <:+ v :=
    List.suffix_of_suffix_length_le (longestSuffix_suffix _ w) h hLong
  exact longestSuffix_eq PrefixOfSome.nil (longestSuffix_mem PrefixOfSome.nil w) hLive
    fun u hu hSuffix => suffix_longestSuffix hu (hSuffix.trans h)

/-! ### Copies -/

section Copies

variable {words : List (List α)} {t : List α} {n d : Nat}

omit [DecidableEq α] in
/-- An occurrence that lies in the bytes copied from the distance `d` lies `d` bytes before, too. -/
theorem suffix_of_copied {w : List α} {e : Nat} (hNear : d ≤ n)
    (hCopied : ∀ i, n ≤ i → i < t.length → t[i]? = t[i - d]?) (he : e ≤ t.length)
    (hEnd : w <:+ t.take e) (hStart : n + w.length ≤ e) : w <:+ t.take (e - d) := by
  have hWord : w = (t.take e).drop (e - w.length) := by
    have hDrop := List.suffix_iff_eq_drop.mp hEnd
    rwa [List.length_take, Nat.min_eq_left he] at hDrop
  have hBefore : w = (t.take (e - d)).drop (e - d - w.length) := by
    refine List.ext_getElem? fun i => ?_
    nth_rewrite 1 [hWord]
    rw [List.getElem?_drop, List.getElem?_drop]
    by_cases hi : i < w.length
    · rw [List.getElem?_take_of_lt (by omega), List.getElem?_take_of_lt (by omega),
        hCopied _ (by omega) (by omega)]
      congr 1
      omega
    · rw [List.getElem?_take_eq_none (by omega), List.getElem?_take_eq_none (by omega)]
  rw [hBefore]
  exact List.drop_suffix _ _

/-- Where a copy begins behind `n` bytes and the longest prefix at its byte `j` has at most `j`
letters, no word begins before the copy and ends behind that byte.  Those that begin in the copy
have been there before, so the rest of the copy completes no first one. -/
theorem not_infix_of_copied {j : Nat} (hd : 0 < d) (hNear : d ≤ n)
    (hCopied : ∀ i, n ≤ i → i < t.length → t[i]? = t[i - d]?)
    (hLive : (longestPrefix words (t.take (n + j))).length ≤ j)
    (hNone : ∀ w ∈ words, ¬w <:+: t.take (n + j)) : ∀ w ∈ words, ¬w <:+: t := by
  have hEnds : ∀ e ≤ t.length, ∀ w ∈ words, ¬w <:+ t.take e := by
    intro e
    induction e using Nat.strong_induction_on with
    | _ e ih =>
      intro he w hw hEnd
      have hFits := hEnd.length_le
      rw [List.length_take, Nat.min_eq_left he] at hFits
      by_cases hEarly : e ≤ n + j
      · refine hNone w hw (hEnd.isInfix.trans (List.IsPrefix.isInfix ?_))
        exact List.take_prefix_take_left hEarly
      by_cases hStart : n + w.length ≤ e
      · exact ih (e - d) (by omega) (by omega) w hw (suffix_of_copied hNear hCopied he hEnd hStart)
      · -- the letters of the word up to byte `j` are a longer prefix
        have hWord := List.suffix_iff_eq_drop.mp hEnd
        rw [List.length_take, Nat.min_eq_left he] at hWord
        have hPart : (t.take (n + j)).drop (e - w.length) = w.take (n + j - (e - w.length)) := by
          have hLetters := congrArg (List.take (n + j - (e - w.length))) hWord
          rw [List.take_drop, List.take_take, Nat.add_sub_cancel' (by omega),
            Nat.min_eq_left (by omega)] at hLetters
          exact hLetters.symm
        have hLong := suffix_longestSuffix (V := PrefixOfSome words)
          (PrefixOfSome.of_prefix (PrefixOfSome.of_mem hw) (List.take_prefix _ w))
          (hPart ▸ List.drop_suffix _ _)
        have hLength := hLong.length_le
        rw [List.length_take] at hLength
        unfold longestPrefix at hLive
        omega
  intro w hw hInfix
  obtain ⟨v, hEnd, hPrefix⟩ := List.infix_iff_suffix_prefix.mp hInfix
  rw [List.prefix_iff_eq_take] at hPrefix
  exact hEnds (min v.length t.length) (Nat.min_le_right _ _) w hw (by
    rwa [← List.take_eq_take_min, ← hPrefix])

end Copies

/-! ### Occurrences -/

/-- The number of pairs of a word of the list and an end position in the text at which the word
ends. -/
def occurrences (words : List (List α)) (t : List α) : Nat :=
  (words.product (List.range (t.length + 1))).countP fun pair => pair.1 <:+ t.take pair.2

/-- The number of words of the list that end at the end of the text. -/
def endings (words : List (List α)) (t : List α) : Nat :=
  words.countP fun word => word <:+ t

@[simp] theorem occurrences_nil_words (t : List α) : occurrences [] t = 0 := rfl

theorem occurrences_cons (word : List α) (words : List (List α)) (t : List α) :
    occurrences (word :: words) t =
      ((List.range (t.length + 1)).countP fun e => word <:+ t.take e) + occurrences words t := by
  simp [occurrences, List.product, List.countP_append, List.countP_map, Function.comp_def]

theorem occurrences_concat (words : List (List α)) (t : List α) (a : α) :
    occurrences words (t ++ [a]) = occurrences words t + endings words (t ++ [a]) := by
  induction words with
  | nil => rfl
  | cons word words ih =>
    have hEnds : ∀ e ∈ List.range (t.length + 1), (t ++ [a]).take e = t.take e := fun e he =>
      List.take_append_of_le_length (by simpa [Nat.lt_succ_iff] using he)
    have hTake : (t ++ [a]).take (t.length + 1) = t ++ [a] := by simp
    rw [occurrences_cons, occurrences_cons, ih, endings, endings, List.length_append,
      List.length_singleton, List.range_succ, List.countP_append, List.countP_singleton,
      List.countP_cons, List.countP_congr (q := fun e => decide (word <:+ t.take e))
        fun e he => by rw [hEnds e he], hTake]
    omega

theorem occurrences_nil {words : List (List α)} (h : ∀ word ∈ words, word ≠ []) :
    occurrences words [] = 0 := by
  induction words with
  | nil => rfl
  | cons word words ih =>
    rw [occurrences_cons, ih fun w hw => h w (List.mem_cons_of_mem _ hw)]
    simp [h word]

theorem occurrences_cons_of_not_infix {word t : List α} (h : ¬word <:+: t)
    (words : List (List α)) : occurrences (word :: words) t = occurrences words t := by
  have hNone : ∀ e ∈ List.range (t.length + 1), ¬decide (word <:+ t.take e) = true := by
    intro e _ hEnd
    exact h ((of_decide_eq_true hEnd).isInfix.trans (List.take_prefix e t).isInfix)
  rw [occurrences_cons, List.countP_eq_zero.mpr hNone, Nat.zero_add]

theorem occurrences_sublist {words words' : List (List α)} (h : words'.Sublist words)
    (t : List α) : occurrences words' t ≤ occurrences words t := by
  induction h with
  | slnil => exact Nat.le_refl _
  | cons word _ ih =>
    rw [occurrences_cons]
    omega
  | cons_cons word _ ih =>
    rw [occurrences_cons, occurrences_cons]
    omega

end Shutter.Library
