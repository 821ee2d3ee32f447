import Shutter.Gunzip.Frame
import Shutter.Gunzip.Refill

/-! The two buffers of tokens.  The length of a copy is stored in `litter_buf` before its distance
is stored in `dist_buf`.  At each event of a trace the buffers are in step or they are not. -/

namespace Shutter.Gunzip

open Shutter.Library

/-- The tokens that have been decoded, and the length of a copy that has no distance yet. -/
structure Decoded where
  tokens : List (UInt8 × Nat)
  length : Option UInt8

def Decoded.next (d : Decoded) : Event → Decoded
  | .literal c _ _ => ⟨d.tokens ++ [(c, 0)], none⟩
  | .length x _ _ => { d with length := some x }
  | .distance n _ _ => ⟨d.tokens ++ (d.length.map fun x => (x, n)).toList, none⟩
  | .called _ => d
  | .starved _ => d

def decoded (trace : List Event) : Decoded := trace.foldl Decoded.next ⟨[], none⟩

@[simp] theorem decoded_append (trace : List Event) (e : Event) :
    decoded (trace ++ [e]) = (decoded trace).next e := by
  simp [decoded, List.foldl_append]

/-- The buffers are in step at an event.  `lit` and `dist` differ before the distance of a copy
only, and `keyword_match` is called with the tokens that have been decoded last. -/
def Event.InStep (d : Decoded) : Event → Prop
  | .literal _ lit dist => lit = dist
  | .length _ lit dist => lit = dist
  | .distance _ lit dist => lit = dist + 1 ∧ d.length.isSome
  | .called c => c.lit = c.dist ∧ c.tokens <:+ d.tokens
  | .starved _ => True

def StepsInStep (trace : List Event) : Prop :=
  ∀ before e, before ++ [e] <+: trace → e.InStep (decoded before)

theorem StepsInStep.of_append {trace trace' : List Event} (h : StepsInStep trace')
    (hPrefix : trace <+: trace') : StepsInStep trace :=
  fun before e hBefore => h before e (hBefore.trans hPrefix)

theorem stepsInStep_append {trace : List Event} {e : Event} :
    StepsInStep (trace ++ [e]) ↔ StepsInStep trace ∧ e.InStep (decoded trace) := by
  constructor
  · intro h
    exact ⟨h.of_append (List.prefix_append _ _), h trace e List.prefix_rfl⟩
  · rintro ⟨hTrace, he⟩ before e' hBefore
    rcases List.prefix_concat_iff.mp hBefore with hEq | hPrefix
    · obtain ⟨rfl, hLast⟩ := List.append_inj' hEq rfl
      obtain rfl := List.singleton_inj.mp hLast
      exact he
    · exact hTrace before e' hPrefix

/-- The buffers are in step at all events, and now. -/
structure InStep (s : State) : Prop where
  steps : StepsInStep s.trace
  counters : s.lit = s.dist ∨ s.lit = s.dist + 1 ∧ (decoded s.trace).length.isSome

/-- The length of a copy does not fill `litter_buf`, and the input does not end before the distance
of a copy. -/
def Event.Ok : Event → Prop
  | .length _ lit _ => lit + 1 ≠ litBufsize
  | .starved flag => flag < 12 ∨ 14 < flag
  | _ => True

instance : DecidablePred Event.Ok
  | .length _ lit _ => inferInstanceAs (Decidable (lit + 1 ≠ litBufsize))
  | .starved flag => inferInstanceAs (Decidable (flag < 12 ∨ 14 < flag))
  | .literal .. | .distance .. | .called _ => inferInstanceAs (Decidable True)

/-- The entries of the two buffers below `n`. -/
def State.entries (s : State) (n : Nat) : List (UInt8 × Nat) :=
  (List.range n).map fun i =>
    ((s.litterBuf.map fun b => b.at_ i).getD 0, (s.distBuf.map fun b => b.at_ i).getD 0)

/-- A copy that should not be there, and events that are not in step. -/
structure Broken (s : State) : Prop where
  bad : ∃ e ∈ s.trace, ¬e.Ok
  steps : ¬StepsInStep s.trace

/-- The buffers are there, and have been in step up to now. -/
structure Clean (s : State) : Prop where
  litterBuf : s.litterBuf.isSome
  distBuf : s.distBuf.isSome
  ok : ∀ e ∈ s.trace, e.Ok
  steps : StepsInStep s.trace

/-- The buffers hold whole tokens, those decoded last. -/
structure Even (s : State) : Prop extends Clean s where
  counters : s.lit = s.dist
  length : (decoded s.trace).length = none
  entries : s.entries s.lit <:+ (decoded s.trace).tokens

/-- The buffers hold whole tokens, and `litter_buf` the length of one more. -/
structure Half (s : State) : Prop extends Clean s where
  counters : s.lit = s.dist + 1
  length : (decoded s.trace).length = some ((s.litterBuf.map fun b => b.at_ s.dist).getD 0)
  entries : s.entries s.dist <:+ (decoded s.trace).tokens

/-- What the conditions above look at is the same. -/
structure SameTokens (s t : State) : Prop where
  lit : t.lit = s.lit
  dist : t.dist = s.dist
  litterBuf : t.litterBuf = s.litterBuf
  distBuf : t.distBuf = s.distBuf
  trace : t.trace = s.trace

theorem Fed.sameTokens {s t : State} (h : Fed s t) : SameTokens s t :=
  ⟨h.lit, h.dist, h.litterBuf, h.distBuf, h.trace⟩

theorem entries_succ (s : State) (n : Nat) : s.entries (n + 1) = s.entries n ++
    [((s.litterBuf.map fun b => b.at_ n).getD 0, (s.distBuf.map fun b => b.at_ n).getD 0)] := by
  simp [State.entries, List.range_succ]

theorem entries_congr {s t : State} {n : Nat}
    (hLit : ∀ i < n, (t.litterBuf.map fun b => b.at_ i) = s.litterBuf.map fun b => b.at_ i)
    (hDist : ∀ i < n, (t.distBuf.map fun b => b.at_ i) = s.distBuf.map fun b => b.at_ i) :
    t.entries n = s.entries n := by
  refine List.map_congr_left fun i hi => ?_
  rw [hLit i (List.mem_range.mp hi), hDist i (List.mem_range.mp hi)]

theorem SameTokens.entries {s t : State} (h : SameTokens s t) (n : Nat) :
    t.entries n = s.entries n :=
  entries_congr (fun _ _ => by rw [h.litterBuf]) fun _ _ => by rw [h.distBuf]

theorem Clean.congr {s t : State} (hs : Clean s) (h : SameTokens s t) : Clean t where
  litterBuf := h.litterBuf ▸ hs.litterBuf
  distBuf := h.distBuf ▸ hs.distBuf
  ok := h.trace ▸ hs.ok
  steps := h.trace ▸ hs.steps

theorem Even.congr {s t : State} (hs : Even s) (h : SameTokens s t) : Even t where
  toClean := hs.toClean.congr h
  counters := by rw [h.lit, h.dist, hs.counters]
  length := by rw [h.trace, hs.length]
  entries := by rw [h.entries, h.lit, h.trace]; exact hs.entries

theorem Half.congr {s t : State} (hs : Half s) (h : SameTokens s t) : Half t where
  toClean := hs.toClean.congr h
  counters := by rw [h.lit, h.dist, hs.counters]
  length := by rw [h.trace, h.litterBuf, h.dist, hs.length]
  entries := by rw [h.entries, h.dist, h.trace]; exact hs.entries

theorem Clean.record {s : State} (h : Clean s) {e : Event} (hOk : e.Ok)
    (hStep : e.InStep (decoded s.trace)) : Clean { s with trace := s.trace ++ [e] } where
  litterBuf := h.litterBuf
  distBuf := h.distBuf
  ok := by
    intro e' he
    rcases List.mem_append.mp he with he | he
    · exact h.ok e' he
    · obtain rfl := List.mem_singleton.mp he
      exact hOk
  steps := stepsInStep_append.mpr ⟨h.steps, hStep⟩

theorem at_set {α : Type} (b : Option (Buffer α)) (i n : Nat) (x : α) :
    ((b.map fun b => b.set n x).map fun b => b.at_ i) =
      if i = n then b.map fun _ => x else b.map fun b => b.at_ i := by
  cases b with
  | none => simp
  | some b => by_cases h : i = n <;> simp [Buffer.set, h]

theorem Even.literal {s : State} (h : Even s) (c : UInt8) :
    Even { s with
      trace := s.trace ++ [.literal c s.lit s.dist], lit := s.lit + 1, dist := s.dist + 1,
      litterBuf := s.litterBuf.map fun b => b.set s.lit c,
      distBuf := s.distBuf.map fun b => b.set s.dist 0 } := by
  have hClean := h.toClean.record (e := .literal c s.lit s.dist) trivial h.counters
  refine ⟨⟨?_, ?_, hClean.ok, hClean.steps⟩, ?_, by rw [decoded_append]; rfl, ?_⟩
  · simpa using h.litterBuf
  · simpa using h.distBuf
  · show s.lit + 1 = s.dist + 1
    rw [h.counters]
  · obtain ⟨old, hOld⟩ := h.entries
    refine ⟨old, ?_⟩
    rw [decoded_append, entries_succ, ← List.append_assoc, entries_congr (s := s), hOld]
    · obtain ⟨lits, hLits⟩ := Option.isSome_iff_exists.mp h.litterBuf
      obtain ⟨dists, hDists⟩ := Option.isSome_iff_exists.mp h.distBuf
      simp [Decoded.next, hLits, hDists, h.counters, Buffer.set]
    · intro i hi
      exact (at_set _ _ _ _).trans (if_neg (by omega))
    · intro i hi
      exact (at_set _ _ _ _).trans (if_neg (by have := h.counters; omega))

theorem Even.copyLength {s : State} (h : Even s) (x : UInt8) (hRoom : s.lit + 1 ≠ litBufsize) :
    Half { s with
      trace := s.trace ++ [.length x s.lit s.dist], lit := s.lit + 1,
      litterBuf := s.litterBuf.map fun b => b.set s.lit x } := by
  have hClean := h.toClean.record (e := .length x s.lit s.dist) hRoom h.counters
  refine ⟨⟨?_, h.distBuf, hClean.ok, hClean.steps⟩, ?_, ?_, ?_⟩
  · simpa using h.litterBuf
  · show s.lit + 1 = s.dist + 1
    rw [h.counters]
  · obtain ⟨lits, hLits⟩ := Option.isSome_iff_exists.mp h.litterBuf
    simp [Decoded.next, hLits, ← h.counters, Buffer.set]
  · show State.entries _ s.dist <:+ _
    rw [decoded_append, entries_congr (s := s)]
    · exact h.counters ▸ h.entries
    · intro i hi
      exact (at_set _ _ _ _).trans (if_neg (by have := h.counters; omega))
    · exact fun _ _ => rfl

theorem Half.copyDist {s : State} (h : Half s) (d : Nat) :
    Even { s with
      trace := s.trace ++ [.distance d s.lit s.dist], dist := s.dist + 1,
      distBuf := s.distBuf.map fun b => b.set s.dist d } := by
  have hClean := h.toClean.record (e := .distance d s.lit s.dist) trivial
    ⟨h.counters, by rw [h.length]; rfl⟩
  refine ⟨⟨h.litterBuf, ?_, hClean.ok, hClean.steps⟩,
    h.counters, by rw [decoded_append]; rfl, ?_⟩
  · simpa using h.distBuf
  · obtain ⟨old, hOld⟩ := h.entries
    refine ⟨old, ?_⟩
    show old ++ State.entries _ s.lit = _
    rw [decoded_append, h.counters, entries_succ, ← List.append_assoc,
      entries_congr (s := s), hOld]
    · obtain ⟨lits, hLits⟩ := Option.isSome_iff_exists.mp h.litterBuf
      obtain ⟨dists, hDists⟩ := Option.isSome_iff_exists.mp h.distBuf
      have hLength := h.length
      simp [Decoded.next, hLits, hDists, Buffer.set] at hLength ⊢
      simp [hLength]
    · exact fun _ _ => rfl
    · intro i hi
      exact (at_set _ _ _ _).trans (if_neg (by omega))

/-- The counters are reset behind a call of `keyword_match`. -/
theorem Even.called {s : State} (h : Even s) :
    Even { s with trace := s.trace ++ [.called ⟨s.entries s.lit, s.lit, s.dist⟩] } where
  toClean := h.toClean.record (e := .called _) trivial ⟨h.counters, h.entries⟩
  counters := h.counters
  length := by rw [decoded_append]; exact h.length
  entries := by rw [decoded_append]; exact h.entries

theorem Even.inStep {s : State} (h : Even s) : InStep s := ⟨h.steps, Or.inl h.counters⟩

theorem Half.inStep {s : State} (h : Half s) : InStep s :=
  ⟨h.steps, Or.inr ⟨h.counters, by rw [h.length]; rfl⟩⟩

/-- The inflater may stop here. -/
def Settled (s : State) : Prop := Even s ∨ Half s ∨ Broken s

theorem Settled.inStep_iff {s : State} (h : Settled s) : InStep s ↔ ∀ e ∈ s.trace, e.Ok := by
  rcases h with h | h | h
  · exact iff_of_true h.inStep h.ok
  · exact iff_of_true h.inStep h.ok
  · obtain ⟨e, he, hBad⟩ := h.bad
    exact iff_of_false (fun hIn => h.steps hIn.steps) fun hOk => hBad (hOk e he)

theorem Broken.congr {s t : State} (hTrace : s.trace <+: t.trace) (h : Broken s) : Broken t := by
  obtain ⟨e, he, hBad⟩ := h.bad
  exact ⟨⟨e, hTrace.subset he, hBad⟩, fun hSteps => h.steps (hSteps.of_append hTrace)⟩

theorem Env.Refills.framed {env : Env} (h : env.Refills) : Framed env Broken where
  congr _ _ hFrame := Broken.congr hFrame.trace
  waitbuf := Triple.of_state fun s hs => (h s).conseq (fun _ ht => ht)
    (fun _ _ ht => hs.congr (ht.trace ▸ List.prefix_rfl)) fun _ _ hFalse => hFalse.elim

end Shutter.Gunzip
