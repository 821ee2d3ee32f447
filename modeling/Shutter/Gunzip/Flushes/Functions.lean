import Shutter.Gunzip.Flushes.Codes

/-! The functions that end with `inflate_codes` and the call of `keyword_match` behind it. -/

namespace Shutter.Gunzip

open Shutter.Library

/-- From states of `S`, the function stores what makes `r` of the buffers and returns 0, unless a
call finds something or the third flush ends it. -/
def Stored (env : Env) (k : Kept) (b : Buffers) (S : State → Prop) (x : Code Nat) (r : Stores)
    (S' : State → Prop) : Prop :=
  ∀ made, Triple (fun s => Holding b made s ∧ S s) x
    (fun v s => (v = 0 ∧ ∃ b', r.2 = some b' ∧ (∀ c ∈ r.1, env.keywordMatch c = false) ∧
      Holding b' (made ++ r.1) s ∧ S' s) ∨ (v = 1 ∧ Ended env k made r (.ret 1) s))
    (Ended env k made r)

section Functions

variable {env : Env} {k : Kept} {b : Buffers} {r : Stores} {S S₁ S₂ : State → Prop}
  {x : Code Nat}

theorem Performs.stored (hx : Performs env k b S x r S₁ fun v _ => v = 0) :
    Stored env k b S x r S₁ :=
  fun made => (hx made).conseq (fun _ hs => hs)
    (fun _ _ ⟨b', hSome, hZero, hRest⟩ => Or.inl ⟨hZero, b', hSome, hRest⟩) fun _ _ hs => hs

/-- A function that is called returns. -/
theorem Stored.call (hx : Stored env k b S x r S₁) : Stored env k b S (call x) r S₁ := by
  refine fun made =>
    (triple_call (S := fun _ => False) ((hx made).conseq (fun _ hs => hs) (fun _ _ hs => hs)
    fun e s hs => ⟨fun v hv => ?_, fun hSpin => absurd (hs.ret.symm.trans hSpin) nofun⟩)).conseq
    (fun _ hs => hs) (fun _ _ hs => hs) fun _ _ hs => hs.2.elim
  have hRet := hs.ret
  subst hRet
  exact Or.inr ⟨(Exit.ret.inj hv).symm, hs⟩

/-- A function behind another one, whose result 1 is kept. -/
theorem Stored.bind {f : Nat → Code Nat} {g : Buffers → Stores} (hx : Stored env k b S x r S₁)
    (hOne : ∀ made, Triple (Ended env k made r (.ret 1)) (f 1)
      (fun v s => v = 1 ∧ Ended env k made r (.ret 1) s) (Ended env k made r))
    (hf : ∀ b', r.2 = some b' → Stored env k b' S₁ (f 0) (g b') S₂) :
    Stored env k b S (x >>= f) (r.bind g) S₂ := by
  intro made
  refine Triple.bind ((hx made).conseq (fun _ hs => hs) (fun _ _ hs => hs) fun _ _ hs => hs.bind g)
    fun v => ⟨fun s hs => ?_⟩
  rcases hs with ⟨rfl, b', hSome, hNone, hHolding, hS⟩ | ⟨rfl, hEnded⟩
  · have hBind : r.bind g = (r.1 ++ (g b').1, (g b').2) := by
      unfold Stores.bind
      rw [hSome]
    have hNext : ∀ {e : Exit} {t : State}, Ended env k (made ++ r.1) (g b') e t →
        Ended env k made (r.bind g) e t := fun h => by
      rw [hBind]
      exact ⟨h.ret, by rw [through_append hNone, h.made, List.append_assoc],
        h.cause.imp_right fun ⟨c, hc, hTrue⟩ => ⟨c, List.mem_append_right _ hc, hTrue⟩,
        by rw [h.gkState, verdict_append hNone]⟩
    refine ((hf b' hSome (made ++ r.1)).ends s ⟨hHolding, hS⟩).mono
      (fun v t h => ?_) fun _ _ h => hNext h
    refine h.imp (fun ⟨hZero, b'', hSome', hNone', hHolding', hS'⟩ => ?_) fun ⟨h1, h⟩ =>
      ⟨h1, hNext h⟩
    rw [hBind]
    exact ⟨hZero, b'', hSome', List.forall_mem_append.mpr ⟨hNone, hNone'⟩,
      by rw [← List.append_assoc]; exact hHolding', hS'⟩
  · exact ((hOne made).ends s hEnded).mono (fun _ _ h => Or.inr ⟨h.1, h.2.bind g⟩)
      fun _ _ h => h.bind g

/-- A part that stores nothing, before a function. -/
theorem Stored.after {α : Type} {y : Code α} {f : α → Code Nat} {Q : α → State → Prop}
    (hy : ∀ made, Triple (fun s => Holding b made s ∧ S s) y
    (fun a s => Holding b made s ∧ Q a s)
      fun _ _ => False) (hf : ∀ a, Stored env k b (Q a) (f a) r S₂) :
    Stored env k b S (y >>= f) r S₂ :=
  fun made =>
    Triple.bind ((hy made).conseq (fun _ hs => hs) (fun _ _ hs => hs) fun _ _ hs => hs.elim)
    fun a => hf a made

/-- The calls, and the state of the connection behind them. -/
structure Made (env : Env) (k : Kept) (made cs : List (List (UInt8 × Nat)))
    (s : State) : Prop where
  tokens : (calls s.trace).map MatchCall.tokens = made ++ through env.keywordMatch cs
  gkState : s.gkState = verdict env k cs

theorem through_none {found : List (UInt8 × Nat) → Bool} {cs : List (List (UInt8 × Nat))}
    (h : ∀ c ∈ cs, found c = false) : through found cs = cs := by
  rw [← List.append_nil cs, through_append h]
  rfl

theorem Stored.made {made : List (List (UInt8 × Nat))} (hx : Stored env k b S x r S₁)
    (hS : ∀ s, S₁ s → s.gkState = k.gkState) :
    Triple (fun s => Holding b made s ∧ S s) x (fun _ => Made env k made r.1)
      fun _ => Made env k made r.1 := by
  refine (hx made).conseq (fun _ hs => hs) (fun _ s hs => ?_) fun _ _ hs =>
    ⟨hs.made, hs.gkState⟩
  rcases hs with ⟨-, b', -, hNone, hHolding, hBehind⟩ | ⟨-, hEnded⟩
  · exact ⟨by rw [hHolding.made, through_none hNone], by rw [hS s hBehind, verdict_none hNone]⟩
  · exact ⟨hEnded.made, hEnded.gkState⟩

variable {src out : Source} {tl td : HuftPtr} {bl bd : Nat} {tokens : List Token}

theorem stored_inflateCodes (h : Decodes tl td bl bd env.fuel src tokens out)
    (hFuel : src.input.length < env.fuel) (hCount : tokens.length < env.fuel)
    (hLoop : b.loop = 0 ∧ b.loopFlag = 0) :
    Stored env k b (From k src) (inflateCodes env tl td bl bd) (b.run tokens) (Behind k out) := by
  refine Stored.call (Performs.stored (Performs.get_bind fun _ s _ hs => ?_))
  rw [if_neg (not_not.mpr hs.flag_eq)]
  refine Performs.before (performs_codesLoop h hFuel hCount ⟨hLoop.1.symm, hLoop.2.symm⟩)
    fun _ b' _ => ?_
  exact Performs.next (Performs.modify fun _ _ hHolding hs =>
    ⟨hHolding.congr ⟨rfl, rfl, rfl, rfl, rfl⟩, hs.flag_eq, hs.kept, hs.next⟩) fun _ _ =>
      Performs.pure rfl

/-- The entries at the end of a block are matched. -/
theorem stored_matchBlock (hS : ∀ s, S s → s.gkState = k.gkState ∧
    ∀ length trace, S { s with length, trace }) :
    Stored env k b S (matchBlock env)
      ([b.entries], some { b with loop := 0, loopFlag := 0 }) S := by
  refine Stored.after (Q := fun _ => S) (fun made => Triple.modify fun s hs =>
    ⟨hs.1.congr ⟨rfl, rfl, rfl, rfl, rfl⟩, (hS s hs.2).2 s.lit s.trace⟩) fun _ made => ?_
  refine Triple.bind_eq ((performs_keywordMatch fun s _ h => (hS s h).2 s.length _).conseq
    (fun _ hs => hs)
    (fun _ _ hs => hs) fun _ _ hs => hs.elim) ?_
  refine Triple.ite (fun hFound => ?_) fun hNot => Triple.pure fun s hs =>
    Or.inl ⟨rfl, _, rfl, ?_,
    ⟨hs.1.litterBuf, hs.1.distBuf, hs.1.lit, hs.1.dist, hs.1.made⟩, hs.2⟩
  · have hOne : ∃ c ∈ [b.entries], env.keywordMatch c = true :=
      ⟨_, List.mem_singleton_self _, hFound⟩
    let All := Ended env k made ([b.entries], some { b with loop := 0, loopFlag := 0 }) (.ret 1)
    refine Triple.bind (Q := fun _ => All) (Triple.modify fun s hs => ?_) fun _ =>
      Triple.get_bind' fun _ _ => Triple.bind (Q := fun _ => All) (Triple.ite (fun _ =>
        Triple.modify fun _ hs => ⟨rfl, hs.made, hs.cause, hs.gkState⟩) fun _ =>
          Triple.pure fun _ hs => hs)
        fun _ => Triple.throw fun _ hs => hs
    exact ⟨rfl, by rw [hs.1.made, through, if_pos hFound], Or.inr hOne,
      (verdict_found hOne).symm⟩
  · simpa using hNot

theorem stored_codesThenMatch (h : Decodes tl td bl bd env.fuel src tokens out)
    (hFuel : src.input.length < env.fuel) (hCount : tokens.length < env.fuel)
    (hLoop : b.loop = 0 ∧ b.loopFlag = 0) :
    Stored env k b (From k src) (codesThenMatch env tl td bl bd) (b.block tokens)
      (Behind k out) := by
  refine Stored.bind (stored_inflateCodes h hFuel hCount hLoop) (fun made => ?_) fun b' _ => ?_
  · exact Triple.bind (Q := fun _ => Ended env k made (b.run tokens) (.ret 1)) (Triple.modify
      fun _ hs => ⟨rfl, hs.made, hs.cause, hs.gkState⟩) fun _ => Triple.throw fun _ hs => hs
  · exact stored_matchBlock fun s hs => ⟨congrArg Kept.gkState hs.kept, fun _ _ =>
      ⟨hs.flag_eq, hs.kept, hs.next⟩⟩

/-- What `inflate_fixed` and `inflate_dynamic` do with their tables. -/
def codesBlock (env : Env) (tl td : HuftPtr) (bl bd : Nat) : Code Nat :=
  call (codesThenMatch env tl td bl bd)

theorem codesBlock_made {made : List (List (UInt8 × Nat))}
    (h : Decodes tl td bl bd env.fuel src tokens out) (hFuel : src.input.length < env.fuel)
    (hCount : tokens.length < env.fuel) (hLoop : b.loop = 0 ∧ b.loopFlag = 0) :
    Triple (fun s => Holding b made s ∧ From k src s) (codesBlock env tl td bl bd)
      (fun _ => Made env k made (b.cuts tokens)) fun _ => Made env k made (b.cuts tokens) :=
  Stored.made (Stored.call (stored_codesThenMatch h hFuel hCount hLoop)) fun _ hs =>
    congrArg Kept.gkState hs.kept

end Functions

end Shutter.Gunzip
