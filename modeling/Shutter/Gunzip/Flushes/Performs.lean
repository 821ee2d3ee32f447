import Shutter.Gunzip.Flushes.Buffers

/-! Rules for a program that stores tokens: from buffers it makes what the flushes make of them,
with a call of `keyword_match` for each flush, unless a call finds something. -/

namespace Shutter.Gunzip

open Shutter.Library

/-- The state has these buffers, and `keyword_match` has been called with `made`. -/
structure Holding (b : Buffers) (made : List (List (UInt8 × Nat))) (s : State) : Prop where
  litterBuf : s.litterBuf.map Buffer.at_ = some b.litter
  distBuf : s.distBuf.map Buffer.at_ = some b.distance
  lit : s.lit = b.lit
  dist : s.dist = b.dist
  made : (calls s.trace).map MatchCall.tokens = made

/-- The next bits are those of `src`, at flag 0, and `k` is kept. -/
structure From (k : Kept) (src : Source) (s : State) : Prop where
  source : s.source = src
  flag_eq : s.flag = 0
  kept : s.kept = k

/-- The state of the connection behind these calls. -/
def verdict (env : Env) (k : Kept) (cs : List (List (UInt8 × Nat))) : Int :=
  if cs.any env.keywordMatch then env.gkStateBlock else k.gkState

/-- How a block is left before its end. -/
structure Ended (env : Env) (k : Kept) (made : List (List (UInt8 × Nat))) (r : Stores) (e : Exit)
    (s : State) : Prop where
  ret : e = .ret 1
  made : (calls s.trace).map MatchCall.tokens = made ++ through env.keywordMatch r.1
  cause : r.2 = none ∨ ∃ c ∈ r.1, env.keywordMatch c = true
  gkState : s.gkState = verdict env k r.1

/-- From states of `S`, the program stores what makes `r` of the buffers, unless a call finds
something. -/
def Performs {α : Type} (env : Env) (k : Kept) (b : Buffers) (S : State → Prop) (x : Code α)
    (r : Stores) (S' : State → Prop) (p : α → Buffers → Prop) : Prop :=
  ∀ made, Triple (fun s => Holding b made s ∧ S s) x
    (fun v s => ∃ b', r.2 = some b' ∧ p v b' ∧ (∀ c ∈ r.1, env.keywordMatch c = false) ∧
      Holding b' (made ++ r.1) s ∧ S' s)
    (Ended env k made r)

theorem verdict_append {env : Env} {k : Kept} {cs ds : List (List (UInt8 × Nat))}
    (h : ∀ c ∈ cs, env.keywordMatch c = false) : verdict env k (cs ++ ds) =
    verdict env k ds := by
  have hNone : cs.any env.keywordMatch = false := by
    rw [List.any_eq_false]
    exact fun c hc hFound => absurd (hFound.symm.trans (h c hc)) nofun
  rw [verdict, List.any_append, hNone, Bool.false_or, verdict]

theorem verdict_found {env : Env} {k : Kept} {cs : List (List (UInt8 × Nat))}
    (h : ∃ c ∈ cs, env.keywordMatch c = true) : verdict env k cs = env.gkStateBlock :=
  if_pos (List.any_eq_true.mpr h)

theorem verdict_none {env : Env} {k : Kept} {cs : List (List (UInt8 × Nat))}
    (h : ∀ c ∈ cs, env.keywordMatch c = false) : verdict env k cs = k.gkState := by
  rw [← List.append_nil cs, verdict_append h]
  rfl

section Performs

variable {env : Env} {k : Kept}

theorem Ended.bind {made : List (List (UInt8 × Nat))} {r : Stores} {e : Exit} {s : State}
    (h : Ended env k made r e s) (f : Buffers → Stores) : Ended env k made (r.bind f) e s := by
  unfold Stores.bind
  split
  · exact h
  · next b hSome =>
    have hFound := h.cause.resolve_left (by rw [hSome]; nofun)
    have hMore : ∃ c ∈ r.1 ++ (f b).1, env.keywordMatch c = true :=
      hFound.imp fun c hc => ⟨List.mem_append_left _ hc.1, hc.2⟩
    exact ⟨h.ret, by rw [through_append_found hFound, h.made], Or.inr hMore,
      by rw [h.gkState, verdict_found hFound, verdict_found hMore]⟩

theorem Performs.bind {α β : Type} {b : Buffers} {S S₁ S₂ : State → Prop} {x : Code α}
    {f : α → Code β} {r : Stores} {g : Buffers → Stores} {p : α → Buffers → Prop}
    {q : β → Buffers → Prop} (hx : Performs env k b S x r S₁ p)
    (hf : ∀ v b', r.2 = some b' → p v b' → Performs env k b' S₁ (f v) (g b') S₂ q) :
    Performs env k b S (x >>= f) (r.bind g) S₂ q := by
  intro made
  refine Triple.bind ((hx made).conseq (fun _ h => h) (fun _ _ h => h) fun _ _ h =>
    h.bind g) fun v =>
    ⟨fun s ⟨b', hSome, hp, hNone, hHolding, hS⟩ => ?_⟩
  have hBind : r.bind g = (r.1 ++ (g b').1, (g b').2) := by
    unfold Stores.bind
    rw [hSome]
  refine ((hf v b' hSome hp (made ++ r.1)).ends s ⟨hHolding, hS⟩).mono (fun v s h => ?_)
    fun e s h => ?_
  · obtain ⟨b'', hSome', hq, hNone', hHolding', hS'⟩ := h
    rw [hBind]
    refine ⟨b'', hSome', hq, ?_, by rw [← List.append_assoc]; exact hHolding', hS'⟩
    exact List.forall_mem_append.mpr ⟨hNone, hNone'⟩
  · rw [hBind]
    refine ⟨h.ret, by rw [through_append hNone, h.made, List.append_assoc], ?_, ?_⟩
    · exact h.cause.imp_right fun ⟨c, hc, hTrue⟩ => ⟨c, List.mem_append_right _ hc, hTrue⟩
    · rw [h.gkState, verdict_append hNone]

/-- The first program calls nothing. -/
theorem Performs.next {α β : Type} {b b' : Buffers} {S S₁ S₂ : State → Prop} {x : Code α}
    {f : α → Code β} {r : Stores} {p : α → Buffers → Prop} {q : β → Buffers → Prop}
    (hx : Performs env k b S x ([], some b') S₁ p)
    (hf : ∀ v, p v b' → Performs env k b' S₁ (f v) r S₂ q) :
    Performs env k b S (x >>= f) r S₂ q :=
  Performs.bind (g := fun _ => r) hx fun v b'' hSome hp => by
    obtain rfl := Option.some.inj hSome
    exact hf v hp

variable {b b' : Buffers} {made : List (List (UInt8 × Nat))} {src src' : Source}

theorem Holding.congr {s t : State} (h : Holding b made s) (hSame : SameTokens s t) :
    Holding b made t :=
  ⟨hSame.litterBuf ▸ h.litterBuf, hSame.distBuf ▸ h.distBuf, hSame.lit ▸ h.lit,
    hSame.dist ▸ h.dist, hSame.trace ▸ h.made⟩

theorem Holding.tokens {s : State} (h : Holding b made s) :
    ((List.range s.lit).map fun i =>
      ((s.litterBuf.map fun b => b.at_ i).getD 0, (s.distBuf.map fun b => b.at_ i).getD 0)) =
      b.entries := by
  obtain ⟨lit, hLit, hLitter⟩ := Option.map_eq_some_iff.mp h.litterBuf
  obtain ⟨dist, hDist, hDistance⟩ := Option.map_eq_some_iff.mp h.distBuf
  rw [Buffers.entries, h.lit, hLit, hDist, ← hLitter, ← hDistance]
  rfl

/-- The second program stores nothing. -/
theorem Performs.before {α β : Type} {b : Buffers} {S S₁ S₂ : State → Prop} {x : Code α}
    {f : α → Code β} {r : Stores} {p : α → Buffers → Prop} {q : β → Buffers → Prop}
    (hx : Performs env k b S x r S₁ p)
    (hf : ∀ v b', p v b' → Performs env k b' S₁ (f v) ([], some b') S₂ q) :
    Performs env k b S (x >>= f) r S₂ q := by
  have hBind : r.bind (fun b => ([], some b)) = r := by
    obtain ⟨cs, _ | b'⟩ := r
    · rfl
    · exact Prod.ext (List.append_nil cs) rfl
  exact hBind ▸ Performs.bind hx fun v b' _ hp => hf v b' hp

theorem Performs.pure {α : Type} {b : Buffers} {S : State → Prop} {a : α}
    {p : α → Buffers → Prop} (hp : p a b) : Performs env k b S
    (Pure.pure a : Code α) ([], some b) S p :=
  fun made => Triple.pure fun _ hs =>
    ⟨b, rfl, hp, by simp, by rw [List.append_nil]; exact hs.1, hs.2⟩

/-- Nothing is stored. -/
theorem Performs.quiet {α : Type} {x : Code α} {a : α}
    (hx : ∀ s₀, Triple (ReadTo s₀ src 0) x (fun v s => v = a ∧ ReadTo s₀ src' 0 s)
    fun _ _ => False) :
    Performs env k b (From k src) x ([], some b) (From k src') fun v _ => v = a := by
  intro made
  refine Triple.of_state fun s ⟨hHolding, hFrom⟩ => ((hx s).conseq (fun t ht => ?_)
    (fun _ t ht => ?_) fun _ _ h => h.elim)
  · subst ht
    exact ⟨hFrom.source, ⟨rfl, rfl, rfl, rfl, rfl⟩, hFrom.flag_eq, rfl⟩
  · refine ⟨b, rfl, ht.1, by simp, ?_, ht.2.source, ht.2.flag_eq, ht.2.kept.trans hFrom.kept⟩
    rw [List.append_nil]
    exact hHolding.congr ht.2.tokens

theorem Performs.modify {S S' : State → Prop} {f : State → State}
    (hf : ∀ made s, Holding b made s → S s → Holding b' made (f s) ∧ S' (f s)) :
    Performs env k b S (modify f : Code Unit) ([], some b') S' fun _ _ => True := by
  intro made
  refine Triple.modify fun s hs => ⟨b', rfl, trivial, by simp, ?_⟩
  rw [List.append_nil]
  exact hf made s hs.1 hs.2

theorem Performs.get_bind {α : Type} {S S' : State → Prop} {f : State → Code α} {r : Stores}
    {p : α → Buffers → Prop}
    (hf : ∀ made s, Holding b made s → S s → Performs env k b S (f s) r S' p) :
    Performs env k b S (get >>= f) r S' p :=
  fun made => Triple.get_bind' fun s hs => hf made s hs.1 hs.2 made

theorem performs_keywordMatch {S : State → Prop}
    (hS : ∀ s e, S s → S { s with trace := s.trace ++ [e] }) :
    Triple (fun s => Holding b made s ∧ S s) (keywordMatch env)
      (fun r s => r = env.keywordMatch b.entries ∧ Holding b (made ++ [b.entries]) s ∧ S s)
      fun _ _ => False := by
  refine Triple.get_bind fun s hs => ?_
  have hTokens := hs.1.tokens
  refine Triple.bind (Q := fun _ t => Holding b (made ++ [b.entries]) t ∧ S t)
    (Triple.modify fun t ht => ?_) fun _ => Triple.pure fun t ht => ⟨by rw [hTokens], ht⟩
  subst ht
  refine ⟨⟨hs.1.litterBuf, hs.1.distBuf, hs.1.lit, hs.1.dist, ?_⟩, hS _ _ hs.2⟩
  rw [calls, List.filterMap_append, List.map_append, ← hs.1.made]
  simp only [List.filterMap_cons, List.filterMap_nil, List.map_cons, List.map_nil, hTokens]
  rfl

theorem performs_flush {v : Codes} (hLoop : v.loop = b.loop) :
    Performs env k b (From k src) (flush env v) ([b.entries], b.flushed) (From k src)
      fun v' b' => v' = { v with loop := b'.loop } := by
  intro made
  refine Triple.bind_eq
    ((performs_keywordMatch fun _ _ h => ⟨h.source, h.flag_eq, h.kept⟩).conseq
    (fun _ h => h) (fun _ _ h => h) fun _ _ h => h.elim) ?_
  refine Triple.ite (fun hFound => ?_) fun hNot => ?_
  · have hOne : ∃ c ∈ [b.entries], env.keywordMatch c = true :=
      ⟨_, List.mem_singleton_self _, hFound⟩
    refine Triple.bind (Q := fun _ s => Holding b (made ++ [b.entries]) s ∧
      s.gkState = env.gkStateBlock)
      (Triple.modify fun s hs => ⟨hs.1.congr ⟨rfl, rfl, rfl, rfl, rfl⟩, rfl⟩) fun _ =>
      Triple.throw fun s hs => ?_
    refine ⟨rfl, ?_, Or.inr hOne, by rw [hs.2, verdict_found hOne]⟩
    rw [hs.1.made, through, if_pos hFound]
  · refine Triple.bind (Q := fun _ s => Holding { b with lit := 0, dist := 0 }
      (made ++ [b.entries]) s ∧
      From k src s) (Triple.modify fun s hs => ?_) fun _ =>
        Triple.ite (fun hThird => ?_) fun hMore => ?_
    · exact ⟨⟨hs.1.litterBuf, hs.1.distBuf, rfl, rfl, hs.1.made⟩, hs.2.source,
        hs.2.flag_eq, hs.2.kept⟩
    · refine Triple.bind (Q := fun _ s => (calls s.trace).map MatchCall.tokens = made ++
        [b.entries] ∧
        s.gkState = k.gkState) (Triple.modify fun s hs =>
          ⟨hs.1.made, congrArg Kept.gkState hs.2.kept⟩)
        fun _ => Triple.throw fun s hs => ?_
      refine ⟨rfl, ?_, Or.inl (if_pos (hLoop ▸ hThird)), by rw [hs.2,
        verdict_none (by simpa using hNot)]⟩
      rw [hs.1, through, if_neg hNot]
      rfl
    · refine Triple.pure fun s hs => ⟨_, if_neg (hLoop ▸ hMore), ?_, ?_, ?_, hs.2⟩
      · rw [hLoop]
      · simpa using hNot
      · exact ⟨hs.1.litterBuf, hs.1.distBuf, hs.1.lit, hs.1.dist, hs.1.made⟩

end Performs

end Shutter.Gunzip
