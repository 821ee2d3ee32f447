import Shutter.Acch.Returns

/-! The window of `acch`.  Every loop over a copied byte writes the byte at `w` and moves `w` past
it, whether it scans the byte or not, so a search that ends without a hit has the expansion of its
tokens in the window. -/

namespace Shutter.Acch

open Shutter.Acsm

variable {σ : Type}

/-! ### Runs that do not throw -/

/-- Where the run has a result, it does not throw and the result has the property. -/
def Ends {α : Type} (x : Run α) (P : α → Prop) : Prop :=
  ∀ r, x.run = some r → ∃ v, r = .ok v ∧ P v

section Ends

variable {α β : Type} {x : Run α} {f : α → Run β} {P : α → Prop} {Q : β → Prop}

theorem Ends.pure {v : α} (h : P v) : Ends (pure v : Run α) P := by
  intro r hr
  exact ⟨v, (Option.some.inj hr).symm, h⟩

theorem Ends.lift {o : Option α} (h : ∀ v, o = some v → P v) : Ends (liftM o : Run α) P := by
  intro r hr
  cases o with
  | none => cases hr
  | some v => exact ⟨v, (Option.some.inj hr).symm, h v rfl⟩

theorem Ends.bind (h : Ends x P) (hf : ∀ v, P v → Ends (f v) Q) : Ends (x >>= f) Q := by
  intro r hr
  rw [ExceptT.run_bind] at hr
  obtain ⟨e, hx, hRest⟩ := Option.bind_eq_some_iff.mp hr
  obtain ⟨v, rfl, hv⟩ := h e hx
  exact hf v hv r hRest

theorem Ends.mono {P' : α → Prop} (h : Ends x P) (hP : ∀ v, P v → P' v) : Ends x P' := by
  intro r hr
  obtain ⟨v, hv, hPv⟩ := h r hr
  exact ⟨v, hv, hP v hPv⟩

end Ends

/-! ### The loops -/

section Loops

variable (S : Scanner σ) {a : Window σ} {d n : Nat} {t : List UInt8}

/-- A scanned byte goes to `w`, with some state and status. -/
theorem copyByte_ends (hFits : a.w < wsize - 1) : Ends (a.copyByte S d) fun r =>
    ∃ state status, r.1 = a.put (a.win (a.w - d)) state status := by
  apply Ends.bind (Ends.lift fun v _ => trivial)
  rintro ⟨state, status⟩ -
  simp only [if_neg (Nat.not_le_of_lt hFits)]
  exact Ends.pure ⟨state, status, rfl⟩

theorem Completes.copyByte (h : Completes d (n + 1) a t) (hFits : t.length < wsize - 1) :
    Ends (a.copyByte S d) fun r => r.1.w = a.w + 1 ∧ Completes d n r.1 t := by
  have hLength := h.length
  apply (copyByte_ends S (show a.w < wsize - 1 by omega)).mono
  rintro r ⟨state, status, hPut⟩
  rw [hPut]
  exact ⟨rfl, h.next (Memory.text_update _ _ _)⟩

theorem Completes.leftBorder (rest j : Nat) (h : Completes d rest a t)
    (hFits : t.length < wsize - 1) :
    Ends (a.leftBorder S d rest j) fun r =>
      r.2.1 ≤ j + rest ∧ Completes d (j + rest - r.2.1) r.1 t := by
  induction rest generalizing a j with
  | zero => exact Ends.pure ⟨Nat.le_refl _, by simpa using h⟩
  | succ rest ih =>
    apply Ends.bind (Ends.lift fun v _ => trivial)
    rintro dept -
    split
    · rw [if_pos h.2.2]
      apply Ends.bind (h.copyByte S hFits)
      rintro ⟨a', hit⟩ ⟨-, hNext⟩
      cases hit with
      | true =>
        refine Ends.pure ⟨by simp, ?_⟩
        rwa [show j + (rest + 1) - (j + 1) = rest by omega]
      | false =>
        apply (ih (j + 1) hNext).mono
        rintro r ⟨hLe, hRest⟩
        rw [show j + (rest + 1) = j + 1 + rest by omega]
        exact ⟨hLe, hRest⟩
    · refine Ends.pure ⟨by simp, ?_⟩
      rwa [show j + (rest + 1) - j = rest + 1 by omega]

/-- After a hit the loops scan on, and they do not run out of the window. -/
theorem scanRun_ends (rest j : Nat) (hd : d ≤ a.w) (hFits : a.w + rest ≤ wsize - 1) :
    Ends (a.scanRun S d rest j) fun _ => True := by
  induction rest generalizing a j with
  | zero => exact Ends.pure trivial
  | succ rest ih =>
    unfold Window.scanRun
    rw [if_pos hd]
    apply Ends.bind (copyByte_ends S (show a.w < wsize - 1 by omega))
    rintro ⟨a', hit⟩ ⟨state, status, hPut⟩
    have hw : a'.w = a.w + 1 := congrArg (fun v : Window σ => v.w) hPut
    cases hit with
    | true => exact Ends.pure trivial
    | false => exact ih (j + 1) (by omega) (by omega)

theorem Completes.scanRun (rest j : Nat) (h : Completes d (n + rest) a t)
    (hFits : t.length < wsize - 1) :
    Ends (a.scanRun S d rest j) fun r =>
      if r.2.2 then d ≤ r.1.w ∧ j ≤ r.2.1 ∧ r.2.1 < j + rest ∧ r.1.w + j = a.w + r.2.1 + 1
      else Completes d n r.1 t ∧ r.2.1 = j + rest := by
  induction rest generalizing a j with
  | zero => exact Ends.pure ⟨h, rfl⟩
  | succ rest ih =>
    unfold Window.scanRun
    rw [if_pos h.2.2]
    apply Ends.bind (h.copyByte S hFits)
    rintro ⟨a', hit⟩ ⟨hw, hNext⟩
    replace hw : a'.w = a.w + 1 := hw
    cases hit with
    | true =>
      have hd := h.2.2
      exact Ends.pure ⟨by simp; omega, Nat.le_refl _, by simp, by simp; omega⟩
    | false =>
      apply (ih (j + 1) hNext).mono
      rintro ⟨a'', j', hit⟩ hRest
      cases hit with
      | true =>
        obtain ⟨hd, hLe, hLt, hw'⟩ := hRest
        exact ⟨hd, by simp at hLe ⊢; omega, by simp at hLt ⊢; omega,
          by simp at hw' ⊢; omega⟩
      | false =>
        obtain ⟨hCopy, hj⟩ := hRest
        exact ⟨hCopy, by simp at hj ⊢; omega⟩

/-- The part of a round before its last loop. -/
theorem Completes.skip {len j p : Nat} (hp : p < len) (hjp : j ≤ p)
    (h : Completes d (len - j) a t) (hFits : t.length < wsize - 1) :
    Ends (a.skip S d j p) fun r => j ≤ r.2.1 ∧ r.2.1 ≤ p ∧
      if r.2.2 then d ≤ r.1.w ∧ r.1.w + len = t.length + r.2.1 + 1
      else Completes d (len - r.2.1) r.1 t := by
  unfold Window.skip
  by_cases hSkip : j + cDepth ≤ p
  · rw [if_pos hSkip]
    unfold cDepth at hSkip ⊢
    have hSplit : len - j = len - (p - 3) + (p - 3 - j) := by omega
    obtain ⟨a₁, hRun, -, hCopy⟩ := Completes.skipRun (p - 3 - j) (hSplit ▸ h)
    have hLength := hCopy.length
    apply Ends.bind (Ends.lift (P := fun v => v = a₁) fun v hv =>
      Option.some.inj (hv.symm.trans hRun))
    rintro v rfl
    have hSplit₁ : len - (p - 3) = len - p + 3 := by omega
    have hCopy' : Completes d (len - p + 3) ({ v with state := S.root } : Window σ) t :=
      hSplit₁ ▸ hCopy
    apply (hCopy'.scanRun S 3 (p - 3) hFits).mono
    rintro ⟨a₂, j₂, hit⟩ hNext
    cases hit with
    | true =>
      obtain ⟨hd, hLe, hLt, hw⟩ := hNext
      simp only at hd hLe hLt hw
      exact ⟨by simp; omega, by simp; omega, hd, by simp; omega⟩
    | false =>
      obtain ⟨hCopy₂, hj⟩ := hNext
      have hj' : j₂ = p := by simp at hj; omega
      exact ⟨by simp; omega, by simp; omega, hj' ▸ hCopy₂⟩
  · rw [if_neg hSkip]
    exact Ends.pure ⟨Nat.le_refl _, hjp, h⟩

theorem Completes.round {len j : Nat} (hj : j < len) (h : Completes d (len - j) a t)
    (hFits : t.length < wsize - 1) :
    Ends (a.round S d len j) fun r => j < r.2.1 ∧ r.2.1 ≤ len ∧
      (r.2.2 = false → Completes d (len - r.2.1) r.1 t) := by
  obtain ⟨hk, hkLen⟩ := a.firstMatch_bounds (d := d) hj
  unfold Window.round
  generalize a.firstMatch d len j = k at hk hkLen
  obtain ⟨hp, hpk⟩ := a.lastShallow_bounds (d := d) hk
  apply Ends.bind (h.skip S (show a.lastShallow d j k < len by omega) hp hFits)
  rintro ⟨a₁, j₁, hit₁⟩ ⟨hj₁, hp₁, hNext⟩
  simp only at hj₁ hp₁
  cases hit₁ with
  | true =>
    obtain ⟨hd, hw⟩ := hNext
    simp only at hd hw
    apply Ends.bind (scanRun_ends S (k + 1 - j₁) j₁ hd (by omega))
    rintro ⟨a₂, j₂, hit₂⟩ -
    exact Ends.pure ⟨by simp; omega, by simp; omega, by simp⟩
  | false =>
    have hSplit : len - j₁ = len - (k + 1) + (k + 1 - j₁) := by omega
    apply Ends.bind (Completes.scanRun S (k + 1 - j₁) j₁ (hSplit ▸ hNext) hFits)
    rintro ⟨a₂, j₂, hit₂⟩ hNext₂
    refine Ends.pure ⟨by simp; omega, by simp; omega, fun hMiss => ?_⟩
    simp only [Bool.false_or] at hMiss
    rw [hMiss] at hNext₂
    exact hNext₂.1

theorem Completes.rounds {len j fuel : Nat} (hj : j ≤ len) (hFuel : len ≤ j + fuel)
    (h : Completes d (len - j) a t) (hFits : t.length < wsize - 1) :
    Ends (a.rounds S d len fuel j) fun r => r.2 = false → r.1.text = t := by
  induction fuel generalizing a j with
  | zero =>
    obtain rfl : j = len := by omega
    rw [Nat.sub_self] at h
    unfold Window.rounds
    rw [if_neg (Nat.lt_irrefl _)]
    exact Ends.pure fun _ => Option.some.inj h.1
  | succ fuel ih =>
    unfold Window.rounds
    by_cases hLt : j < len
    · rw [if_pos hLt]
      apply Ends.bind (h.round S hLt hFits)
      rintro ⟨a₁, j₁, hit₁⟩ ⟨hj₁, hLen₁, hNext⟩
      simp only at hj₁ hLen₁
      cases hit₁ with
      | true => exact Ends.pure fun hMiss => by simp at hMiss
      | false => exact ih hLen₁ (by omega) (hNext rfl)
    · obtain rfl : j = len := by omega
      rw [Nat.sub_self] at h
      rw [if_neg hLt]
      exact Ends.pure fun _ => Option.some.inj h.1

/-- A token without a hit leaves the text after the token. -/
theorem token_ends (l : UInt8) (dbuf : UInt16) (hToken : expandToken l dbuf a.text = some t)
    (hFits : t.length < wsize - 1) :
    Ends (a.token S l dbuf) fun r => r.2 = false → r.1.text = t := by
  unfold Window.token
  unfold expandToken at hToken
  by_cases hLiteral : dbuf = 0
  · rw [if_pos hLiteral] at hToken ⊢
    obtain rfl := Option.some.inj hToken
    simp only [List.length_append, Memory.text_length, List.length_singleton] at hFits
    apply Ends.bind (Ends.lift fun v _ => trivial)
    rintro ⟨state, status⟩ -
    simp only [if_neg (show ¬wsize - 1 ≤ a.w by omega)]
    by_cases hHit : status = 0
    · rw [if_pos hHit]
      exact Ends.pure fun hMiss => by simp at hMiss
    · rw [if_neg hHit]
      exact Ends.pure fun _ => Memory.text_update _ _ _
  · rw [if_neg hLiteral] at hToken ⊢
    have hd : 0 < dbuf.toNat := Nat.pos_of_ne_zero fun h0 => hLiteral (UInt16.toNat_inj.mp h0)
    have hLe : dbuf.toNat ≤ a.w := by
      rw [copyText] at hToken
      split at hToken
      · rename_i hLe
        simpa using hLe
      · cases hToken
    apply Ends.bind (Completes.leftBorder S (l.toNat + 3) 0 ⟨hToken, hd, hLe⟩ hFits)
    rintro ⟨a₁, j, hit₁⟩ ⟨hj, hCopy⟩
    simp only [Nat.zero_add] at hj hCopy
    cases hit₁ with
    | true => exact Ends.pure fun hMiss => by simp at hMiss
    | false => exact hCopy.rounds S hj (by omega) hFits

theorem tokens_ends {l : Nat → UInt8} {dbuf : Nat → UInt16} {rest i : Nat}
    (hExpand : expand l dbuf rest i a.text = some t) (hFits : t.length < wsize - 1) :
    Ends (a.tokens S l dbuf rest i) fun r => r.2 = none → r.1.text = t := by
  induction rest generalizing a i with
  | zero => exact Ends.pure fun _ => Option.some.inj hExpand
  | succ rest ih =>
    obtain ⟨t₁, hToken, hRest⟩ := Option.bind_eq_some_iff.mp hExpand
    have hPrefix := expand_prefix hRest
    have hLess := Nat.lt_of_le_of_lt hPrefix.length_le hFits
    apply Ends.bind (token_ends S (l i) (dbuf i) hToken hLess)
    rintro ⟨a₁, hit⟩ hText
    cases hit with
    | true => exact Ends.pure fun hMiss => by simp at hMiss
    | false =>
      obtain rfl := hText rfl
      exact ih hRest

end Loops

/-! ### The window at the end -/

theorem search_window (S : Scanner σ) {l : Nat → UInt8} {dbuf : Nat → UInt16}
    {offset lastLit : Nat} {m : Memory} {t : List UInt8} {o : Outcome}
    (hExpand : expand l dbuf (lastLit - offset) offset [] = some t) (hFits : t.length < wsize - 1)
    (hSearch : search S l dbuf offset lastLit m = some o) (hRet : o.ret = 0) :
    o.memory.text = t := by
  obtain ⟨r, hRun, hOutcome⟩ := Option.bind_eq_some_iff.mp hSearch
  obtain ⟨⟨a, hit⟩, rfl, hText⟩ := tokens_ends S hExpand hFits r hRun
  cases hit with
  | none =>
    obtain rfl := Option.some.inj hOutcome
    exact hText rfl
  | some i =>
    obtain rfl := Option.some.inj hOutcome
    simp at hRet

/-- Where `acch` returns 0, the window holds the expansion of the tokens, for any automaton and any
contents of the arrays; over a compiled automaton it returns. -/
theorem acch_window (acsm : AcsmxStruct) (l : Nat → UInt8) (dbuf : Nat → UInt16)
    (offset lastLit : Nat) (m : Memory) (t : List UInt8)
    (hExpand : expand l dbuf (lastLit - offset) offset [] = some t)
    (hFits : t.length < wsize - 1) :
    (∀ o, acch acsm l dbuf offset lastLit m = some o → o.ret = 0 →
      o.memory.w = t.length ∧ o.memory.text = t) ∧
    ∀ patterns, acsmcompile patterns = some acsm →
      (∀ p ∈ patterns.acsmPatterns, p ≠ []) →
      ∃ o, acch acsm l dbuf offset lastLit m = some o := by
  constructor
  · intro o hAcch hRet
    have hText := search_window (scanner acsm) hExpand hFits hAcch hRet
    refine ⟨?_, hText⟩
    rw [← hText, Memory.text_length]
  · intro patterns hCompile hNonempty
    exact acch_returns hCompile hNonempty hExpand m

/-- The letters `abc` and a copy of all three, without the pattern `abd`. -/
theorem acch_window_abcabc : ∃ acsm' o,
    acsmcompile (acsmaddPattern acsmnew [97, 98, 100]) = some acsm' ∧
    acch acsm' (fun i => [97, 98, 99, 0].getD i 0) (fun i => [0, 0, 0, 3].getD i 0) 0 4
      zeroMemory = some o ∧
    (o.ret = 0 → o.memory.w = 6 ∧ o.memory.text = [97, 98, 99, 97, 98, 99]) := by
  obtain ⟨acsm', -, -, hCompile, -⟩ := acsmcompile_holds (acsmaddPattern acsmnew [97, 98, 100])
  obtain ⟨hWindow, hReturns⟩ := acch_window acsm' (fun i => [97, 98, 99, 0].getD i 0)
    (fun i => [0, 0, 0, 3].getD i 0) 0 4 zeroMemory [97, 98, 99, 97, 98, 99] (by decide) (by decide)
  obtain ⟨o, hAcch⟩ := hReturns _ hCompile (by decide)
  exact ⟨acsm', o, hCompile, hAcch, hWindow o hAcch⟩

end Shutter.Acch
