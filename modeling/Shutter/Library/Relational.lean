import Shutter.Library.Exec

/-! Rules for two runs of programs with a state: what holds between the two states before the runs,
and between their results and states behind them. -/

namespace Shutter.Library

variable {ε δ σ τ α β : Type}

/-- Both runs ended, with results and states of `Q`, or both left, with states of `E`. -/
def EndBoth (Q : α → β → σ → τ → Prop) (E : ε → δ → σ → τ → Prop) :
    EStateM.Result ε σ α → EStateM.Result δ τ β → Prop
  | .ok a s, .ok b t => Q a b s t
  | .error e s, .error d t => E e d s t
  | _, _ => False

/-- Started in states that `R` relates, the two programs end alike. -/
structure Rel (R : σ → τ → Prop) (x : EStateM ε σ α) (y : EStateM δ τ β)
    (Q : α → β → σ → τ → Prop) (E : ε → δ → σ → τ → Prop) : Prop where
  ends : ∀ s t, R s t → EndBoth Q E (x s) (y t)

section Rel

variable {γ ζ : Type} {R R' : σ → τ → Prop} {Q Q' : α → β → σ → τ → Prop}
  {Q₂ : γ → ζ → σ → τ → Prop} {E E' : ε → δ → σ → τ → Prop}
    {x : EStateM ε σ α} {y : EStateM δ τ β}

theorem EndBoth.mono {r : EStateM.Result ε σ α} {q : EStateM.Result δ τ β}
    (h : EndBoth Q E r q) (hQ : ∀ a b s t, Q a b s t → Q' a b s t)
    (hE : ∀ e d s t, E e d s t → E' e d s t) :
    EndBoth Q' E' r q := by
  cases r with
  | ok a s =>
    cases q with
    | ok b t => exact hQ a b s t h
    | error d t => exact h
  | error e s =>
    cases q with
    | ok b t => exact h
    | error d t => exact hE e d s t h

theorem Rel.conseq (h : Rel R x y Q E) (hR : ∀ s t, R' s t → R s t)
    (hQ : ∀ a b s t, Q a b s t → Q' a b s t) (hE : ∀ e d s t, E e d s t → E' e d s t) :
    Rel R' x y Q' E' :=
  ⟨fun s t hst => (h.ends s t (hR s t hst)).mono hQ hE⟩

theorem Rel.pure {a : α} {b : β} (h : ∀ s t, R s t → Q a b s t) :
    Rel R (Pure.pure a : EStateM ε σ α) (Pure.pure b : EStateM δ τ β) Q E := ⟨h⟩

theorem Rel.throw {e : ε} {d : δ} (h : ∀ s t, R s t → E e d s t) :
    Rel R (MonadExcept.throw e : EStateM ε σ α)
      (MonadExcept.throw d : EStateM δ τ β) Q E := ⟨h⟩

theorem Rel.modify {f : σ → σ} {g : τ → τ} {Q : PUnit → PUnit → σ → τ → Prop}
    (h : ∀ s t, R s t → Q ⟨⟩ ⟨⟩ (f s) (g t)) :
    Rel R (modify f : EStateM ε σ PUnit) (modify g : EStateM δ τ PUnit) Q E := ⟨h⟩

theorem Rel.bind {f : α → EStateM ε σ γ} {g : β → EStateM δ τ ζ} (hxy : Rel R x y Q E)
    (hfg : ∀ a b, Rel (Q a b) (f a) (g b) Q₂ E) : Rel R (x >>= f) (y >>= g) Q₂ E := by
  refine ⟨fun s t hst => ?_⟩
  have hEnds := hxy.ends s t hst
  show EndBoth Q₂ E (EStateM.bind x f s) (EStateM.bind y g t)
  unfold EStateM.bind
  revert hEnds
  cases x s with
  | ok a s' =>
    cases y t with
    | ok b t' => exact fun hEnds => (hfg a b).ends s' t' hEnds
    | error d t' => exact fun hEnds => False.elim hEnds
  | error e s' =>
    cases y t with
    | ok b t' => exact fun hEnds => False.elim hEnds
    | error d t' => exact fun hEnds => hEnds

theorem Rel.of_states (h : ∀ s t, R s t → Rel (fun s' t' => s' = s ∧ t' = t) x y Q E) :
    Rel R x y Q E := ⟨fun s t hst => (h s t hst).ends s t ⟨rfl, rfl⟩⟩

theorem Rel.get_bind {f : σ → EStateM ε σ γ} {g : τ → EStateM δ τ ζ}
    (h : ∀ s t, R s t → Rel R (f s) (g t) Q₂ E) : Rel R (get >>= f) (get >>= g) Q₂ E :=
  ⟨fun s t hst => (h s t hst).ends s t hst⟩

theorem Rel.get_bind_eq {f : σ → EStateM ε σ γ} {g : τ → EStateM δ τ ζ}
    (h : ∀ s t, R s t → Rel (fun s' t' => s' = s ∧ t' = t) (f s) (g t) Q₂ E) :
    Rel R (get >>= f) (get >>= g) Q₂ E :=
  ⟨fun s t hst => (h s t hst).ends s t ⟨rfl, rfl⟩⟩

theorem Rel.ite {p q : Prop} [Decidable p] [Decidable q] {x' : EStateM ε σ α}
    {y' : EStateM δ τ β} (hpq : p ↔ q) (hx : p → Rel R x y Q E)
    (hy : ¬p → Rel R x' y' Q E) :
    Rel R (if p then x else x') (if q then y else y') Q E := by
  by_cases hp : p
  · rw [if_pos hp, if_pos (hpq.mp hp)]
    exact hx hp
  · rw [if_neg hp, if_neg fun hq => hp (hpq.mpr hq)]
    exact hy hp

end Rel

/-! ### The same results -/

section Agrees

variable {γ : Type} {R R' : σ → σ → Prop} {Q Q' : α → σ → σ → Prop}
  {Q₂ : γ → σ → σ → Prop}
  {E E' : ε → σ → σ → Prop} {x y : EStateM ε σ α}

/-- The two programs end with the same result, or leave in the same way. -/
abbrev Agrees (R : σ → σ → Prop) (x y : EStateM ε σ α) (Q : α → σ → σ → Prop)
    (E : ε → σ → σ → Prop) : Prop :=
  Rel R x y (fun a b s t => a = b ∧ Q a s t) fun e d s t => e = d ∧ E e s t

theorem Agrees.conseq (h : Agrees R x y Q E) (hR : ∀ s t, R' s t → R s t)
    (hQ : ∀ a s t, Q a s t → Q' a s t) (hE : ∀ e s t, E e s t → E' e s t) :
    Agrees R' x y Q' E' :=
  Rel.conseq h hR (fun a _ s t hst => ⟨hst.1, hQ a s t hst.2⟩)
    fun e _ s t hst => ⟨hst.1, hE e s t hst.2⟩

theorem Agrees.pure {a : α} (h : ∀ s t, R s t → Q a s t) :
    Agrees R (Pure.pure a : EStateM ε σ α) (Pure.pure a) Q E :=
  Rel.pure fun s t hst => ⟨rfl, h s t hst⟩

theorem Agrees.throw {e : ε} (h : ∀ s t, R s t → E e s t) :
    Agrees R (MonadExcept.throw e : EStateM ε σ α) (MonadExcept.throw e) Q E :=
  Rel.throw fun s t hst => ⟨rfl, h s t hst⟩

theorem Agrees.modify {f g : σ → σ} {Q : PUnit → σ → σ → Prop}
    (h : ∀ s t, R s t → Q ⟨⟩ (f s) (g t)) :
    Agrees R (modify f : EStateM ε σ PUnit) (modify g) Q E :=
  Rel.modify fun s t hst => ⟨rfl, h s t hst⟩

theorem Agrees.bind {f g : α → EStateM ε σ γ} (hxy : Agrees R x y Q E)
    (hfg : ∀ a, Agrees (Q a) (f a) (g a) Q₂ E) : Agrees R (x >>= f) (y >>= g) Q₂ E := by
  refine Rel.bind hxy fun a b => Rel.of_states fun s t hst => ?_
  obtain ⟨rfl, hQ⟩ := hst
  exact (hfg a).conseq (fun s' t' h => by obtain ⟨rfl, rfl⟩ := h; exact hQ) (fun _ _ _ h => h)
    fun _ _ _ h => h

end Agrees

end Shutter.Library
