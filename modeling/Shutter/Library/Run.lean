import Mathlib.Data.List.Count
import Mathlib.Data.List.Induction

/-! Runs of a step function that can fail.  A run takes the steps of a list from left to right and
fails with the first step that fails. -/

namespace Shutter.Library

variable {σ α : Type*}

/-- An invariant of the steps taken so far holds at the end of the run, and the run succeeds, when
each step of the list keeps it. -/
theorem foldlM_invariant (step : σ → α → Option σ) (P : List α → σ → Prop)
    (l : List α) {s : σ} (hInit : P [] s)
    (hStep : ∀ done a rest, l = done ++ a :: rest → ∀ s, P done s →
      ∃ s', step s a = some s' ∧ P (done ++ [a]) s') :
    ∃ s', l.foldlM step s = some s' ∧ P l s' := by
  suffices h : ∀ rest done s, l = done ++ rest → P done s →
      ∃ s', rest.foldlM step s = some s' ∧ P l s' from h l [] s rfl hInit
  intro rest
  induction rest with
  | nil =>
    rintro done s rfl hP
    exact ⟨s, rfl, by simpa using hP⟩
  | cons a rest ih =>
    intro done s hl hP
    obtain ⟨s', hs', hP'⟩ := hStep done a rest hl s hP
    obtain ⟨s'', hs'', hP''⟩ := ih (done ++ [a]) s' (by simpa using hl) hP'
    exact ⟨s'', by rw [List.foldlM_cons, hs']; exact hs'', hP''⟩

/-- An invariant of the steps taken so far holds at the end of a run that succeeds. -/
theorem foldlM_kept (step : σ → α → Option σ) (P : List α → σ → Prop)
    (l : List α) {s s' : σ} (hInit : P [] s) (hRun : l.foldlM step s = some s')
    (hStep : ∀ done a, a ∈ l → ∀ s s', P done s → step s a = some s' →
    P (done ++ [a]) s') :
    P l s' := by
  suffices h : ∀ rest done s, l = done ++ rest → P done s →
    rest.foldlM step s = some s' → P l s'
    from h l [] s rfl hInit hRun
  intro rest
  induction rest with
  | nil =>
    intro done s hl hP hRun
    obtain rfl : s = s' := by simpa using hRun
    simpa [hl] using hP
  | cons a rest ih =>
    intro done s hl hP hRun
    rw [List.foldlM_cons] at hRun
    obtain ⟨t, ht, hRest⟩ := Option.bind_eq_some_iff.mp hRun
    exact ih (done ++ [a]) t (by simpa using hl) (hStep done a (by simp [hl]) s t hP ht) hRest

/-- A run succeeds exactly when each step is allowed behind those before it, where the steps that
are allowed are those that succeed. -/
theorem foldlM_iff_allowed (step : σ → α → Option σ) (P : List α → σ → Prop)
    (Ok : List α → α → Prop) (l : List α) {s : σ} (hInit : P [] s)
    (hStep : ∀ done a rest, l = done ++ a :: rest → ∀ s, P done s → Ok done a →
      ∃ s', step s a = some s' ∧ P (done ++ [a]) s')
    (hFail : ∀ done a s, P done s → ¬Ok done a → step s a = none) :
    (∃ s', l.foldlM step s = some s') ↔ ∀ done a rest, l = done ++ a :: rest →
    Ok done a := by
  constructor
  · rintro ⟨s', hRun⟩
    suffices h : ∀ rest done s, l = done ++ rest → P done s →
        (∃ s', rest.foldlM step s = some s') →
        ∀ mid a tail, rest = mid ++ a :: tail → Ok (done ++ mid) a by
      intro done a rest hSplit
      exact h l [] s rfl hInit ⟨s', hRun⟩ done a rest hSplit
    intro rest
    induction rest with
    | nil =>
      intro done s _ _ _ mid a tail hSplit
      simp at hSplit
    | cons a rest ih =>
      rintro done s hl hP ⟨s', hRest⟩ mid b tail hSplit
      rw [List.foldlM_cons] at hRest
      have hOk : Ok done a := by
        by_contra hNot
        rw [hFail done a s hP hNot] at hRest
        cases hRest
      obtain ⟨t, ht, hNext⟩ := hStep done a rest hl s hP hOk
      rw [ht] at hRest
      rcases mid with _ | ⟨c, mid⟩
      · obtain ⟨rfl, -⟩ := List.cons.inj hSplit
        rwa [List.append_nil]
      · obtain ⟨rfl, hTail⟩ := List.cons.inj hSplit
        have hMid := ih (done ++ [a]) t (by simpa using hl) hNext ⟨s', hRest⟩ mid b tail hTail
        rwa [List.append_assoc] at hMid
  · intro hOk
    obtain ⟨s', hRun, -⟩ := foldlM_invariant step P l hInit fun done a rest hSplit s hP =>
      hStep done a rest hSplit s hP (hOk done a rest hSplit)
    exact ⟨s', hRun⟩

/-- A list has at most `n` entries of a kind exactly when fewer than `n` come before each of
them. -/
theorem countP_lt_iff {p : α → Bool} {n : Nat} {l : List α} :
    (∀ done a rest, l = done ++ a :: rest → p a → done.countP p < n) ↔
    l.countP p ≤ n := by
  constructor
  · intro h
    induction l using List.reverseRecOn with
    | nil => simp
    | append_singleton l a ih =>
      have hInit := ih fun done b rest hSplit => h done b (rest ++ [a]) (by simp [hSplit])
      rw [List.countP_append, List.countP_singleton]
      split
      · exact h l a [] rfl ‹_›
      · exact hInit
  · rintro h done a rest rfl ha
    rw [List.countP_append, List.countP_cons_of_pos ha] at h
    omega

/-- A run succeeds exactly when each step meets, in the state that those before it leave, the
condition under which it succeeds. -/
theorem foldlM_iff_each {step : σ → α → Option σ} {Ok : σ → α → Prop}
    (hStep : ∀ s a, (∃ s', step s a = some s') ↔ Ok s a) (l : List α) (s : σ) :
    (∃ s', l.foldlM step s = some s') ↔
      ∀ done a rest, l = done ++ a :: rest → ∀ t, done.foldlM step s = some t → Ok t a := by
  refine foldlM_iff_allowed step (fun done t => done.foldlM step s = some t)
    (fun done a => ∀ t, done.foldlM step s = some t → Ok t a) l rfl ?_ ?_
  · intro done a _ _ t ht hOk
    obtain ⟨t', hNext⟩ := (hStep t a).mpr (hOk t ht)
    exact ⟨t', hNext, by rw [List.foldlM_append, ht]; simpa using hNext⟩
  · intro done a t ht hNot
    by_contra hSome
    obtain ⟨t', hNext⟩ := Option.ne_none_iff_exists'.mp hSome
    refine hNot fun u hu => ?_
    obtain rfl := Option.some.inj (ht.symm.trans hu)
    exact (hStep t a).mp ⟨t', hNext⟩

/-- Two loops take the same run when each step of the first is the step of the second on what the
second keeps. -/
theorem foldlM_eq_of_kept {f g : σ → α → Option σ} {P : σ → Prop}
    (hStep : ∀ s a, P s → f s a = g s a ∧ ∀ s', g s a = some s' → P s')
    (l : List α) {s : σ} (hs : P s) : l.foldlM f s = l.foldlM g s ∧
    ∀ s', l.foldlM g s = some s' → P s' := by
  induction l generalizing s with
  | nil =>
    refine ⟨rfl, ?_⟩
    rintro _ ⟨⟩
    exact hs
  | cons a l ih =>
    obtain ⟨hEq, hKept⟩ := hStep s a hs
    rw [List.foldlM_cons, List.foldlM_cons, hEq]
    cases hNext : g s a with
    | none => exact ⟨rfl, fun _ h => nomatch h⟩
    | some s' => exact ih (hKept s' hNext)

/-- The states that runs from `start` reach, when each step meets a condition on the state before
it. -/
inductive Reaches (step : σ → α → Option σ) (Ok : σ → α → Prop)
    (start : σ) : σ → Prop
  | start : Reaches step Ok start start
  | step {s s' : σ} {a : α} : Reaches step Ok start s → Ok s a → step s a = some s' →
      Reaches step Ok start s'

/-- What holds at the start and is kept by each step that meets the condition holds in every state
reached. -/
theorem Reaches.invariant {step : σ → α → Option σ} {Ok : σ → α → Prop} {start s : σ}
    {P : σ → Prop} (h : Reaches step Ok start s) (hInit : P start)
    (hStep : ∀ s a s', P s → Ok s a → step s a = some s' → P s') : P s := by
  induction h with
  | start => exact hInit
  | step _ hOk hNext ih => exact hStep _ _ _ ih hOk hNext

theorem Reaches.mono {step : σ → α → Option σ} {Ok Ok' : σ → α → Prop} {start s : σ}
    (h : Reaches step Ok start s) (hOk : ∀ s a, Ok s a → Ok' s a) :
    Reaches step Ok' start s := by
  induction h with
  | start => exact .start
  | step _ hStep hNext ih => exact ih.step (hOk _ _ hStep) hNext

/-- A list of steps that all meet a condition without content reaches the end of its run. -/
theorem Reaches.of_foldlM {step : σ → α → Option σ} {start s s' : σ} (l : List α)
    (h : Reaches step (fun _ _ => True) start s) (hRun : l.foldlM step s = some s') :
    Reaches step (fun _ _ => True) start s' := by
  induction l generalizing s with
  | nil =>
    obtain rfl : s = s' := by simpa using hRun
    exact h
  | cons a l ih =>
    rw [List.foldlM_cons] at hRun
    cases hNext : step s a with
    | none => simp [hNext] at hRun
    | some t => exact ih (h.step trivial hNext) (by simpa [hNext] using hRun)

end Shutter.Library
