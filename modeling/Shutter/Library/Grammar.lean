import Mathlib.Logic.Basic
import Mathlib.Data.List.Basic

/-! Readers of a list, and the words that they read.  A reader takes the next items of a list, and
fails at its end or where it rejects what it has read.  The rules build the words of a program from
those of its parts. -/

namespace Shutter.Library

variable {ι α β : Type}

/-- A reader of items. -/
abbrev Reader (ι α : Type) := StateT (List ι) Option α

/-- The next item. -/
def Reader.next : Reader ι ι
  | [] => none
  | b :: rest => some (b, rest)

/-- `x`, if `p` holds. -/
def Reader.only (p : Prop) [Decidable p] (x : Reader ι Unit) : Reader ι Unit :=
  if p then x else pure ()

/-- The reader reads the words of `G`, each with its value, and leaves what is behind them. -/
def Reads (x : Reader ι α) (G : α → List ι → Prop) : Prop :=
  ∀ t a rest, x t = some (a, rest) ↔ ∃ w, G a w ∧ t = w ++ rest

/-- The words of one reader and then of another. -/
def Then (G : α → List ι → Prop) (H : α → β → List ι → Prop) (b : β)
    (w : List ι) : Prop :=
  ∃ a u v, w = u ++ v ∧ G a u ∧ H a b v

section Reads

variable {x : Reader ι α} {G G' : α → List ι → Prop}

theorem Reads.pure (a : α) :
    Reads (Pure.pure a : Reader ι α) fun v w => v = a ∧ w = [] := by
  intro t v rest
  constructor
  · intro h
    obtain ⟨rfl, rfl⟩ := Prod.mk.inj (Option.some.inj h)
    exact ⟨[], ⟨rfl, rfl⟩, rfl⟩
  · rintro ⟨_, ⟨rfl, rfl⟩, rfl⟩
    rfl

theorem Reads.next : Reads (Reader.next : Reader ι ι) fun b w => w = [b] := by
  intro t b rest
  constructor
  · intro h
    cases t with
    | nil => cases h
    | cons c t =>
      obtain ⟨rfl, rfl⟩ := Prod.mk.inj (Option.some.inj h)
      exact ⟨[c], rfl, rfl⟩
  · rintro ⟨_, rfl, rfl⟩
    rfl

theorem Reads.failure : Reads (failure : Reader ι α) fun _ _ => False := by
  intro t a rest
  constructor
  · intro h
    cases h
  · rintro ⟨_, h, -⟩
    exact h.elim

theorem Reads.bind {f : α → Reader ι β} {H : α → β → List ι → Prop} (hx : Reads x G)
    (hf : ∀ a, Reads (f a) (H a)) : Reads (x >>= f) (Then G H) := by
  intro t b rest
  constructor
  · intro h
    obtain ⟨⟨a, mid⟩, hFirst, hSecond⟩ := Option.bind_eq_some_iff.mp h
    obtain ⟨u, hu, rfl⟩ := (hx t a mid).mp hFirst
    obtain ⟨v, hv, rfl⟩ := (hf a mid b rest).mp hSecond
    exact ⟨u ++ v, ⟨a, u, v, rfl, hu, hv⟩, (List.append_assoc u v rest).symm⟩
  · rintro ⟨_, ⟨a, u, v, rfl, hu, hv⟩, rfl⟩
    have hFirst := (hx (u ++ v ++ rest) a (v ++ rest)).mpr ⟨u, hu, List.append_assoc u v rest⟩
    exact Option.bind_eq_some_iff.mpr ⟨(a, v ++ rest), hFirst,
      (hf a _ b rest).mpr ⟨v, hv, rfl⟩⟩

theorem Reads.ite {p : Prop} [Decidable p] {y : Reader ι α} {H : α → List ι → Prop}
    (hx : p → Reads x G) (hy : ¬p → Reads y H) :
    Reads (if p then x else y) fun a w => if p then G a w else H a w := by
  intro t a rest
  by_cases hp : p
  · simpa only [if_pos hp] using hx hp t a rest
  · simpa only [if_neg hp] using hy hp t a rest

theorem Reads.only {p : Prop} [Decidable p] {x : Reader ι Unit} {G : Unit → List ι → Prop}
    (hx : Reads x G) : Reads (Reader.only p x) fun _ w => if p then G () w else w = [] := by
  intro t a rest
  unfold Reader.only
  by_cases hp : p
  · simpa only [if_pos hp] using hx t a rest
  · simpa only [if_neg hp, true_and] using Reads.pure () t a rest

theorem Reads.congr (h : Reads x G) (hG : ∀ a w, G a w ↔ G' a w) : Reads x G' := by
  intro t a rest
  rw [h t a rest]
  exact exists_congr fun w => and_congr_left' (hG a w)

/-- A list that is read begins with a word. -/
theorem Reads.prefix_iff (h : Reads x G) (t : List ι) :
    (∃ a rest, x t = some (a, rest)) ↔ ∃ a w, G a w ∧ w <+: t := by
  constructor
  · rintro ⟨a, rest, hRun⟩
    obtain ⟨w, hw, rfl⟩ := (h t a rest).mp hRun
    exact ⟨a, w, hw, List.prefix_append w rest⟩
  · rintro ⟨a, w, hw, rest, rfl⟩
    exact ⟨a, rest, (h _ a rest).mpr ⟨w, hw, rfl⟩⟩

end Reads

end Shutter.Library
