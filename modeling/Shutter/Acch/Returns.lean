import Shutter.Acch.Correct

/-! The search returns.  Every loop over a copied byte moves `w` with its index as long as the
source is in the text, and a copy token whose distance stays in the text before keeps it so.  The
length of the text does not matter, since the loops give up where `w` is too large. -/

namespace Shutter.Acch

open Shutter.Acsm

variable {σ : Type}

/-! ### Runs that do not fail -/

section Returns

variable {α β : Type} {x : Run α} {f : α → Run β} {P : α → Prop} {Q : β → Prop}

/-- The run does not fail, and its result has the property. -/
def Returns (x : Run α) (P : α → Prop) : Prop := ∃ r, x.run = some r ∧
    ∀ v, r = .ok v → P v

theorem Returns.pure {v : α} (h : P v) : Returns (pure v : Run α) P := by
  refine ⟨.ok v, rfl, ?_⟩
  rintro _ ⟨⟩
  exact h

theorem Returns.throw {m : Memory} : Returns (throw m : Run α) P := by
  refine ⟨.error m, rfl, ?_⟩
  rintro _ ⟨⟩

theorem Returns.lift {o : Option α} {v : α} (ho : o = some v) (h : P v) :
    Returns (liftM o : Run α) P := by
  subst ho
  exact Returns.pure h

theorem Returns.bind (h : Returns x P) (hf : ∀ v, P v → Returns (f v) Q) :
    Returns (x >>= f) Q := by
  obtain ⟨r, hr, hP⟩ := h
  unfold Returns
  rw [ExceptT.run_bind, hr]
  cases r with
  | error m =>
    refine ⟨.error m, rfl, ?_⟩
    rintro _ ⟨⟩
  | ok v => exact hf v (hP v rfl)

theorem Returns.mono {P' : α → Prop} (h : Returns x P) (hP : ∀ v, P v → P' v) :
    Returns x P' := by
  obtain ⟨r, hr, hAll⟩ := h
  exact ⟨r, hr, fun v hv => hP v (hAll v hv)⟩

end Returns

section Total

variable {S : Scanner σ} {a : Window σ} {d : Nat} (hScan : ∀ s b, ∃ r, S.scan s b = some r)
  (hDept : ∀ s, ∃ n, S.dept s = some n)

include hScan

theorem copyByte_returns : Returns (a.copyByte S d) fun r => r.1.w = a.w + 1 := by
  obtain ⟨⟨state, status⟩, h⟩ := hScan a.state (a.win (a.w - d))
  refine Returns.bind (P := fun _ => True) (Returns.lift h trivial) ?_
  rintro ⟨state, status⟩ -
  by_cases hFull : wsize - 1 ≤ a.w
  · simp only [if_pos hFull]
    exact Returns.throw
  · simp only [if_neg hFull]
    exact Returns.pure rfl

theorem scanRun_returns (rest j : Nat) (hd : d ≤ a.w) : Returns (a.scanRun S d rest j) fun r =>
    a.w ≤ r.1.w ∧ (r.2.2 = false → r.1.w = a.w + rest ∧ r.2.1 = j + rest) := by
  induction rest generalizing a j with
  | zero => exact Returns.pure ⟨Nat.le_refl _, fun _ => ⟨rfl, rfl⟩⟩
  | succ rest ih =>
    unfold Window.scanRun
    rw [if_pos hd]
    refine (copyByte_returns hScan).bind ?_
    rintro ⟨a', hit⟩ hw
    replace hw : a'.w = a.w + 1 := hw
    cases hit with
    | true => exact Returns.pure ⟨by simp; omega, by simp⟩
    | false =>
      refine (ih (j + 1) (a := a') (by omega)).mono ?_
      rintro ⟨a'', j', hit⟩ ⟨hLe, hMiss⟩
      refine ⟨by simp at hLe ⊢; omega, fun h => ?_⟩
      obtain ⟨hw', hj⟩ := hMiss h
      exact ⟨by simp at hw' ⊢; omega, by simp at hj ⊢; omega⟩

omit hScan in
theorem skipRun_returns (rest : Nat) (hd : d ≤ a.w) :
    ∃ a', a.skipRun d rest = some a' ∧ a'.w = a.w + rest := by
  induction rest generalizing a with
  | zero => exact ⟨a, rfl, rfl⟩
  | succ rest ih =>
    unfold Window.skipRun
    rw [if_pos hd]
    let a₁ : Window σ :=
      { a with win := Function.update a.win a.w (a.win (a.w - d)), w := a.w + 1 }
    obtain ⟨a', hRun, hw⟩ := ih (a := a₁) (show d ≤ a.w + 1 by omega)
    exact ⟨a', hRun, by rw [hw]; show a.w + 1 + rest = _; omega⟩

include hDept in
theorem leftBorder_returns (rest j : Nat) (hd : d ≤ a.w) :
    Returns (a.leftBorder S d rest j) fun r =>
      a.w ≤ r.1.w ∧ r.2.1 ≤ j + rest ∧ r.1.w + j = a.w + r.2.1 := by
  induction rest generalizing a j with
  | zero => exact Returns.pure ⟨Nat.le_refl _, Nat.le_refl _, rfl⟩
  | succ rest ih =>
    obtain ⟨n, hn⟩ := hDept a.state
    refine Returns.bind (P := fun _ => True) (Returns.lift hn trivial) ?_
    rintro dept -
    rw [if_pos hd]
    split
    · refine (copyByte_returns hScan).bind ?_
      rintro ⟨a', hit⟩ hw
      replace hw : a'.w = a.w + 1 := hw
      cases hit with
      | true => exact Returns.pure ⟨by simp; omega, by simp, by simp; omega⟩
      | false =>
        refine (ih (j + 1) (a := a') (by omega)).mono ?_
        rintro ⟨a'', j', hit⟩ ⟨hLe, hj, hw'⟩
        simp only at hLe hj hw' ⊢
        omega
    · exact Returns.pure ⟨Nat.le_refl _, Nat.le_add_right _ _, rfl⟩

theorem skip_returns {j p : Nat} (hjp : j ≤ p) (hd : d ≤ a.w) :
    Returns (a.skip S d j p) fun r =>
    a.w ≤ r.1.w ∧ (r.2.2 = false → j ≤ r.2.1 ∧ r.2.1 ≤ p ∧
      r.1.w + j = a.w + r.2.1) := by
  unfold Window.skip
  by_cases hSkip : j + cDepth ≤ p
  · rw [if_pos hSkip]
    unfold cDepth at hSkip ⊢
    obtain ⟨a₁, hRun, hw⟩ := skipRun_returns (p - (4 - 1) - j) hd
    refine Returns.bind (P := fun a' => a' = a₁) (Returns.lift hRun rfl) ?_
    rintro a' rfl
    refine (scanRun_returns hScan (4 - 1) (p - (4 - 1)) (a := { a' with state := S.root })
      (show d ≤ a'.w by omega)).mono ?_
    rintro ⟨a₂, j₂, hit⟩ ⟨hLe, hMiss⟩
    refine ⟨by simp at hLe ⊢; omega, fun h => ?_⟩
    obtain ⟨hw₂, hj₂⟩ := hMiss h
    simp only at hw₂ hj₂ ⊢
    omega
  · rw [if_neg hSkip]
    exact Returns.pure ⟨Nat.le_refl _, fun _ => ⟨Nat.le_refl _, hjp, rfl⟩⟩

theorem round_returns {len j : Nat} (hj : j < len) (hd : d ≤ a.w) :
    Returns (a.round S d len j) fun r => a.w ≤ r.1.w ∧ j < r.2.1 ∧ r.2.1 ≤ len ∧
      (r.2.2 = false → r.1.w + j = a.w + r.2.1) := by
  obtain ⟨hk, hkLen⟩ := a.firstMatch_bounds (d := d) hj
  unfold Window.round
  generalize a.firstMatch d len j = k at hk hkLen
  obtain ⟨hp, hpk⟩ := a.lastShallow_bounds (d := d) hk
  refine (skip_returns hScan hp hd).bind ?_
  rintro ⟨a₁, j₁, hit₁⟩ ⟨hLe₁, hMiss₁⟩
  simp only at hLe₁ hMiss₁
  refine (scanRun_returns hScan (k + 1 - j₁) j₁ (show d ≤ a₁.w by omega)).bind ?_
  rintro ⟨a₂, j₂, hit₂⟩ ⟨hLe₂, hMiss₂⟩
  simp only at hLe₂ hMiss₂
  refine Returns.pure ⟨by simp; omega, by simp; omega, by simp; omega, fun h => ?_⟩
  simp only [Bool.or_eq_false_iff] at h
  obtain ⟨hj₁, hp₁, hw₁⟩ := hMiss₁ h.1
  obtain ⟨hw₂, -⟩ := hMiss₂ h.2
  simp only
  omega

theorem rounds_returns {len j fuel : Nat} (hj : j ≤ len) (hFuel : len ≤ j + fuel)
    (hd : d ≤ a.w) :
    Returns (a.rounds S d len fuel j) fun r => r.2 = false → r.1.w + j = a.w + len := by
  induction fuel generalizing a j with
  | zero =>
    obtain rfl : j = len := by omega
    unfold Window.rounds
    rw [if_neg (Nat.lt_irrefl _)]
    exact Returns.pure fun _ => rfl
  | succ fuel ih =>
    unfold Window.rounds
    by_cases hLt : j < len
    · rw [if_pos hLt]
      refine (round_returns hScan hLt hd).bind ?_
      rintro ⟨a₁, j₁, hit₁⟩ ⟨hLe₁, hj₁, hLen₁, hMiss₁⟩
      simp only at hLe₁ hj₁ hLen₁ hMiss₁
      cases hit₁ with
      | true => exact Returns.pure fun h => by simp at h
      | false =>
        have hw₁ := hMiss₁ rfl
        refine (ih hLen₁ (by omega) (show d ≤ a₁.w by omega)).mono fun r hr h => ?_
        have hw := hr h
        omega
    · obtain rfl : j = len := by omega
      rw [if_neg hLt]
      exact Returns.pure fun _ => rfl

include hDept in
/-- A token without a hit writes as many bytes as it stands for. -/
theorem token_returns (l : UInt8) (dbuf : UInt16) {t t' : List UInt8}
    (hToken : expandToken l dbuf t = some t') (hw : a.w = t.length) :
    Returns (a.token S l dbuf) fun r => r.2 = false → r.1.w = t'.length := by
  unfold Window.token
  unfold expandToken at hToken
  by_cases hLiteral : dbuf = 0
  · rw [if_pos hLiteral] at hToken ⊢
    obtain rfl := Option.some.inj hToken
    obtain ⟨⟨state, status⟩, h⟩ := hScan a.state l
    refine Returns.bind (P := fun _ => True) (Returns.lift h trivial) ?_
    rintro ⟨state, status⟩ -
    by_cases hHit : status = 0
    · simp only [if_pos hHit]
      exact Returns.pure fun h => by simp at h
    · simp only [if_neg hHit]
      by_cases hFull : wsize - 1 ≤ a.w
      · simp only [if_pos hFull]
        exact Returns.throw
      · simp only [if_neg hFull]
        refine Returns.pure fun _ => ?_
        rw [List.length_append, List.length_singleton, ← hw]
        rfl
  · rw [if_neg hLiteral] at hToken ⊢
    have hLength := copyText_length hToken
    have hd : dbuf.toNat ≤ a.w := by
      rw [copyText] at hToken
      split at hToken
      · omega
      · cases hToken
    refine (leftBorder_returns hScan hDept (l.toNat + 3) 0 hd).bind ?_
    rintro ⟨a₁, j₁, hit₁⟩ ⟨hLe₁, hj₁, hw₁⟩
    simp only at hLe₁ hj₁ hw₁
    cases hit₁ with
    | true => exact Returns.pure fun h => by simp at h
    | false =>
      refine (rounds_returns hScan (by omega) (by omega) (show dbuf.toNat ≤ a₁.w by omega)).mono
        fun r hr h => ?_
      have hEnd := hr h
      omega

include hDept in
theorem tokens_returns {l : Nat → UInt8} {dbuf : Nat → UInt16} {rest i : Nat}
    {t t' : List UInt8} (hExpand : expand l dbuf rest i t = some t') (hw : a.w = t.length) :
    Returns (a.tokens S l dbuf rest i) fun _ => True := by
  induction rest generalizing a i t with
  | zero => exact Returns.pure trivial
  | succ rest ih =>
    obtain ⟨t₁, hToken, hRest⟩ := Option.bind_eq_some_iff.mp hExpand
    refine (token_returns hScan hDept (l i) (dbuf i) hToken hw).bind ?_
    rintro ⟨a₁, hit⟩ hLength
    cases hit with
    | true => exact Returns.pure trivial
    | false => exact ih hRest (hLength rfl)

end Total

/-- The search returns on every token array whose distances stay in the text before. -/
theorem acch_returns {acsm acsm' : AcsmxStruct} (hCompile : acsmcompile acsm = some acsm')
    (hNonempty : ∀ p ∈ acsm.acsmPatterns, p ≠ []) {l : Nat → UInt8} {dbuf : Nat → UInt16}
    {offset lastLit : Nat} {t : List UInt8}
    (hExpand : expand l dbuf (lastLit - offset) offset [] = some t) (m : Memory) :
    ∃ o, acch acsm' l dbuf offset lastLit m = some o := by
  obtain ⟨r, hRun, -⟩ := tokens_returns (S := textScanner acsm.acsmPatterns)
    (a := ⟨{ m with w := 0 }, (textScanner acsm.acsmPatterns).root⟩) (fun _ _ => ⟨_, rfl⟩)
    (fun _ => ⟨_, rfl⟩) hExpand rfl
  rw [acch_eq hCompile hNonempty, search, hRun]
  rcases r with m | ⟨a, _ | i⟩
  · exact ⟨_, rfl⟩
  · exact ⟨_, rfl⟩
  · exact ⟨_, rfl⟩

end Shutter.Acch
