import Mathlib.Logic.Basic

/-! Rules of pre- and postconditions for programs with a state that can leave before their end. -/

namespace Shutter.Library

variable {ε σ α β : Type}

/-- The run of a program ended with a result and a state of `Q`, or left in one of `E`. -/
def Ends (Q : α → σ → Prop) (E : ε → σ → Prop) : EStateM.Result ε σ α → Prop
  | .ok a s => Q a s
  | .error e s => E e s

/-- Started in a state of `P`, the program ends with a result and a state of `Q`, or leaves in one
of `E`. -/
structure Triple (P : σ → Prop) (x : EStateM ε σ α) (Q : α → σ → Prop)
    (E : ε → σ → Prop) :
    Prop where
  ends : ∀ s, P s → Ends Q E (x s)

/-- The program keeps `P`, wherever it ends. -/
abbrev Keeps (P : σ → Prop) (x : EStateM ε σ α) : Prop := Triple P x (fun _ => P) fun _ => P

section Triple

variable {P P' : σ → Prop} {Q Q' : α → σ → Prop} {R : β → σ → Prop}
  {E E' : ε → σ → Prop}
  {x : EStateM ε σ α}

theorem Ends.mono {r : EStateM.Result ε σ α} (h : Ends Q E r) (hQ : ∀ a s, Q a s → Q' a s)
    (hE : ∀ e s, E e s → E' e s) : Ends Q' E' r := by
  cases r with
  | ok a s => exact hQ a s h
  | error e s => exact hE e s h

theorem Triple.conseq (h : Triple P x Q E) (hP : ∀ s, P' s → P s)
    (hQ : ∀ a s, Q a s → Q' a s) (hE : ∀ e s, E e s → E' e s) : Triple P' x Q' E' :=
  ⟨fun s hs => (h.ends s (hP s hs)).mono hQ hE⟩

theorem Triple.pure {a : α} (h : ∀ s, P s → Q a s) : Triple P
    (Pure.pure a : EStateM ε σ α) Q E :=
  ⟨h⟩

theorem Triple.throw {e : ε} (h : ∀ s, P s → E e s) :
    Triple P (MonadExcept.throw e : EStateM ε σ α) Q E := ⟨h⟩

theorem Triple.modify_eq {f : σ → σ} (s : σ) :
    Triple (fun t => t = s) (modify f : EStateM ε σ PUnit) (fun _ t => t = f s) E :=
  ⟨fun _ ht => congrArg f ht⟩

theorem Triple.modify {f : σ → σ} {Q : PUnit → σ → Prop}
    (h : ∀ s, P s → Q ⟨⟩ (f s)) :
    Triple P (modify f : EStateM ε σ PUnit) Q E := ⟨h⟩

theorem Triple.bind {f : α → EStateM ε σ β} (hx : Triple P x Q E)
    (hf : ∀ a, Triple (Q a) (f a) R E) : Triple P (x >>= f) R E := by
  refine ⟨fun s hs => ?_⟩
  have hEnds := hx.ends s hs
  show Ends R E (EStateM.bind x f s)
  unfold EStateM.bind
  cases hxs : x s with
  | ok a s' =>
    rw [hxs] at hEnds
    exact (hf a).ends s' hEnds
  | error e s' =>
    rw [hxs] at hEnds
    exact hEnds

/-- The result of the first program is known. -/
theorem Triple.bind_eq {a : α} {S : σ → Prop} {f : α → EStateM ε σ β}
    (hx : Triple P x (fun b s => b = a ∧ S s) E) (hf : Triple S (f a) R E) :
    Triple P (x >>= f) R E :=
  Triple.bind hx fun _ => ⟨fun s hs => hs.1 ▸ hf.ends s hs.2⟩

theorem Triple.or {P₂ : σ → Prop} {Q₂ : α → σ → Prop} {E₂ : ε → σ → Prop}
    (h : Triple P x Q E) (h₂ : Triple P₂ x Q₂ E₂) :
    Triple (fun s => P s ∨ P₂ s) x (fun a s => Q a s ∨ Q₂ a s)
      fun e s => E e s ∨ E₂ e s := by
  refine ⟨fun s hs => ?_⟩
  rcases hs with hs | hs
  · exact (h.ends s hs).mono (fun _ _ => Or.inl) fun _ _ => Or.inl
  · exact (h₂.ends s hs).mono (fun _ _ => Or.inr) fun _ _ => Or.inr

theorem Triple.of_state (h : ∀ s, P s → Triple (fun t => t = s) x Q E) : Triple P x Q E :=
  ⟨fun s hs => (h s hs).ends s rfl⟩

/-- The state that `get` reads is known in what follows. -/
theorem Triple.get_bind {f : σ → EStateM ε σ β}
    (h : ∀ s, P s → Triple (fun t => t = s) (f s) R E) :
    Triple P (get >>= f) R E := ⟨fun s hs => (h s hs).ends s rfl⟩

/-- What `get` reads satisfies the precondition, which is kept. -/
theorem Triple.get_bind' {f : σ → EStateM ε σ β} (h : ∀ s, P s → Triple P (f s) R E) :
    Triple P (get >>= f) R E := ⟨fun s hs => (h s hs).ends s hs⟩

theorem Triple.ite {p : Prop} [Decidable p] {y : EStateM ε σ α} (hx : p → Triple P x Q E)
    (hy : ¬p → Triple P y Q E) : Triple P (if p then x else y) Q E := by
  split
  · exact hx ‹p›
  · exact hy ‹¬p›

end Triple

section Keeps

variable {P : σ → Prop} {x : EStateM ε σ α}

theorem Keeps.pure (a : α) : Keeps P (Pure.pure a : EStateM ε σ α) := ⟨fun _ h => h⟩

theorem Keeps.throw (e : ε) : Keeps P (MonadExcept.throw e : EStateM ε σ α) :=
    ⟨fun _ h => h⟩

theorem Keeps.modify {f : σ → σ} (h : ∀ s, P s → P (f s)) :
    Keeps P (modify f : EStateM ε σ PUnit) := ⟨h⟩

theorem Keeps.bind {f : α → EStateM ε σ β} (hx : Keeps P x) (hf : ∀ a, Keeps P (f a)) :
    Keeps P (x >>= f) := Triple.bind hx hf

theorem Keeps.get_bind {f : σ → EStateM ε σ β} (h : ∀ s, P s → Keeps P (f s)) :
    Keeps P (get >>= f) := ⟨fun s hs => (h s hs).ends s hs⟩

theorem Keeps.ite {p : Prop} [Decidable p] {y : EStateM ε σ α} (hx : Keeps P x)
    (hy : Keeps P y) :
    Keeps P (if p then x else y) := Triple.ite (fun _ => hx) fun _ => hy

end Keeps

end Shutter.Library
