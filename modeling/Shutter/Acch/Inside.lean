import Shutter.Acch.Excerpt
import Shutter.Acch.Returns
import Shutter.Acch.Within

/-! The buffers of a search and of the decoding of a hit.  `win` and `st` have `WSIZE` elements and
`fulltext` as many, and neither the look-ahead of `acch` nor the ten more tokens of `decodeing` are
tested against them. -/

namespace Shutter.Acch

open Shutter.Acsm Shutter.Library

variable {σ : Type}

/-! ### The decoded text -/

/-- The bytes that a token stands for. -/
def tokenSize (l : UInt8) (dbuf : UInt16) : Nat := if dbuf = 0 then 1 else l.toNat + 3

/-- The bytes that the first tokens stand for. -/
def tokensSize (l : Nat → UInt8) (dbuf : Nat → UInt16) (length : Nat) : Nat :=
  ((List.range length).map fun i => tokenSize (l i) (dbuf i)).sum

theorem tokensSize_succ (l : Nat → UInt8) (dbuf : Nat → UInt16) (n : Nat) :
    tokensSize l dbuf (n + 1) = tokensSize l dbuf n + tokenSize (l n) (dbuf n) := by
  rw [tokensSize, tokensSize, List.range_succ]
  simp

theorem tokensSize_mono (l : Nat → UInt8) (dbuf : Nat → UInt16) :
    Monotone (tokensSize l dbuf) :=
  monotone_nat_of_le_succ fun n => by
    rw [tokensSize_succ]
    exact Nat.le_add_right _ _

theorem expand_concat {l : Nat → UInt8} {dbuf : Nat → UInt16} (rest i : Nat) (t : List UInt8) :
    expand l dbuf (rest + 1) i t =
      (expand l dbuf rest i t).bind (expandToken (l (i + rest)) (dbuf (i + rest))) := by
  induction rest generalizing i t with
  | zero =>
    cases h : expandToken (l i) (dbuf i) t <;> simp [expand, h]
  | succ rest ih =>
    rw [expand, expand]
    cases expandToken (l i) (dbuf i) t with
    | none => rfl
    | some t₁ =>
      simp only [Option.bind_eq_bind, Option.bind_some]
      rw [ih, show i + 1 + rest = i + (rest + 1) by omega]

theorem expandToken_length {l : UInt8} {dbuf : UInt16} {t t' : List UInt8}
    (h : expandToken l dbuf t = some t') : t'.length = t.length + tokenSize l dbuf := by
  unfold expandToken at h
  unfold tokenSize
  split at h
  next hLiteral =>
    obtain rfl := Option.some.inj h
    rw [if_pos hLiteral, List.length_append, List.length_singleton]
  next hCopy => rw [if_neg hCopy, copyText_length h]

/-- The first tokens of a valid array have an expansion. -/
theorem expand_first {l : Nat → UInt8} {dbuf : Nat → UInt16} {lastLit n : Nat} {t : List UInt8}
    (h : expand l dbuf lastLit 0 [] = some t) (hn : n ≤ lastLit) :
    ∃ t', expand l dbuf n 0 [] = some t' ∧ t'.length = tokensSize l dbuf n := by
  induction lastLit generalizing n t with
  | zero =>
    obtain rfl : n = 0 := by omega
    exact ⟨[], rfl, rfl⟩
  | succ lastLit ih =>
    have hConcat := h
    rw [expand_concat, Nat.zero_add] at hConcat
    obtain ⟨t₁, hInit, hLast⟩ := Option.bind_eq_some_iff.mp hConcat
    by_cases hEnd : n ≤ lastLit
    · exact ih hInit hEnd
    · obtain rfl : n = lastLit + 1 := by omega
      obtain ⟨t₂, hInit', hLength⟩ := ih hInit (Nat.le_refl lastLit)
      obtain rfl := Option.some.inj (hInit.symm.trans hInit')
      refine ⟨t, h, ?_⟩
      rw [expandToken_length hLast, hLength, tokensSize_succ]

theorem acch_hit {acsm : AcsmxStruct} {l : Nat → UInt8} {dbuf : Nat → UInt16}
    {offset lastLit : Nat} {m : Memory} {o : Outcome}
    (h : acch acsm l dbuf offset lastLit m = some o) : o.ret = 1 ↔ ∃ i, o.textLen = some i := by
  obtain ⟨r, -, hOutcome⟩ := Option.bind_eq_some_iff.mp h
  rcases r with m | ⟨a, _ | i⟩
  · obtain rfl := Option.some.inj hOutcome
    simp
  · obtain rfl := Option.some.inj hOutcome
    simp
  · obtain rfl := Option.some.inj hOutcome
    simp

/-! ### The property -/

/-- `acch` stays inside `win` and `st`, and `decodeing` of a hit stays inside `fulltext`. -/
def StaysInside (acsm : AcsmxStruct) (l : Nat → UInt8) (dbuf : Nat → UInt16) (lastLit : Nat)
    (m : Memory) : Prop :=
  ∃ o, acchWithin acsm l dbuf 0 lastLit m = some o ∧
    (o.ret = 1 → ∃ i t, o.textLen = some i ∧ decodeing l dbuf (min lastLit (i + 10)) = some t)

/-- No round reaches `WSIZE`, and the tokens up to the tenth behind a hit stand for fewer bytes than
`fulltext` has. -/
def Fits (acsm : AcsmxStruct) (l : Nat → UInt8) (dbuf : Nat → UInt16) (lastLit : Nat)
    (m : Memory) : Prop :=
  (∀ x ∈ reach acsm l dbuf 0 lastLit m, x < wsize) ∧
    ∀ o i, acch acsm l dbuf 0 lastLit m = some o → o.textLen = some i →
      tokensSize l dbuf (min lastLit (i + 10)) < fulltextSize

/-- The buffers are kept exactly when no round reaches their end and the decoded text fits. -/
theorem staysInside_iff (acsm acsm' : AcsmxStruct) (hCompile : acsmcompile acsm = some acsm')
    (hNonempty : ∀ p ∈ acsm.acsmPatterns, p ≠ []) (l : Nat → UInt8) (dbuf : Nat → UInt16)
    (lastLit : Nat) (t : List UInt8) (hExpand : expansion l dbuf lastLit = some t) (m : Memory) :
    StaysInside acsm' l dbuf lastLit m ↔ Fits acsm' l dbuf lastLit m := by
  obtain ⟨o, hAcch⟩ := acch_returns hCompile hNonempty
    (show expand l dbuf (lastLit - 0) 0 [] = some t from hExpand) m
  have hDecode : ∀ i, (∃ t', decodeing l dbuf (min lastLit (i + 10)) = some t') ↔
      tokensSize l dbuf (min lastLit (i + 10)) < fulltextSize := fun i => by
    obtain ⟨t', hFirst, hLength⟩ := expand_first hExpand (Nat.min_le_left lastLit (i + 10))
    rw [← hLength, decodeing, hFirst, Option.bind_eq_bind, Option.bind_some]
    split
    next hLt => exact ⟨fun _ => hLt, fun _ => ⟨t', rfl⟩⟩
    next hLe => exact ⟨fun h => absurd h.choose_spec nofun, fun h => absurd h hLe⟩
  unfold StaysInside Fits
  rw [acchWithin_eq]
  constructor
  · rintro ⟨o', hRun, hHit⟩
    split at hRun
    next hReach =>
      refine ⟨hReach, fun o₁ i h₁ hi => ?_⟩
      obtain rfl := Option.some.inj (hRun.symm.trans h₁)
      obtain ⟨i', t', hi', hText⟩ := hHit ((acch_hit hRun).mpr ⟨i, hi⟩)
      obtain rfl := Option.some.inj (hi.symm.trans hi')
      exact (hDecode i).mp ⟨t', hText⟩
    next => cases hRun
  · rintro ⟨hReach, hSize⟩
    rw [if_pos hReach]
    refine ⟨o, hAcch, fun hRet => ?_⟩
    obtain ⟨i, hi⟩ := (acch_hit hAcch).mp hRet
    obtain ⟨t', hText⟩ := (hDecode i).mpr (hSize o i hAcch hi)
    exact ⟨i, t', hi, hText⟩

/-! ### Short texts -/

section Short

variable {S : Scanner σ} {a : Window σ} {d : Nat} (hScan : ∀ s b, ∃ r, S.scan s b = some r)
  (hDept : ∀ s, ∃ n, S.dept s = some n)

theorem roundReach_le {len j : Nat} (hj : j < len) : ∀ x ∈ a.roundReach d len j,
    x ≤ a.w + len := by
  obtain ⟨hk, hkLen⟩ := a.firstMatch_bounds (d := d) hj
  unfold Window.roundReach
  generalize a.firstMatch d len j = k at hk hkLen
  obtain ⟨-, hpk⟩ := a.lastShallow_bounds (d := d) hk
  intro x hx
  rcases List.mem_cons.mp hx with rfl | hx
  · omega
  · split at hx
    · obtain rfl := List.mem_singleton.mp hx
      unfold cDepth
      omega
    · cases hx

include hScan

theorem roundsReach_le {len fuel j : Nat} (hj : j ≤ len) (hd : d ≤ a.w) :
    ∀ x ∈ a.roundsReach S d len fuel j, x ≤ a.w + (len - j) + len := by
  induction fuel generalizing a j with
  | zero => simp [Window.roundsReach]
  | succ fuel ih =>
    intro x hx
    unfold Window.roundsReach at hx
    split at hx
    next hLt =>
      rcases List.mem_append.mp hx with hx | hx
      · have := roundReach_le hLt x hx
        omega
      · obtain ⟨r, hRun, hNext⟩ := round_returns hScan hLt hd
        rw [hRun] at hx
        rcases r with m | ⟨a₁, j₁, hit⟩
        · cases hx
        · cases hit with
          | true => cases hx
          | false =>
            obtain ⟨hLe, hj₁, hLen, hMiss⟩ := hNext _ rfl
            have hw : a₁.w + j = a.w + j₁ := hMiss rfl
            have hRest := ih hLen (show d ≤ a₁.w from Nat.le_trans hd hLe) x hx
            simp only at hj₁ hLen hRest
            omega
    next => cases hx

include hDept

theorem tokenReach_le (l : UInt8) (dbuf : UInt16) {t t' : List UInt8}
    (hToken : expandToken l dbuf t = some t') (hw : a.w = t.length) :
    ∀ x ∈ a.tokenReach S l dbuf, x ≤ t'.length + 258 := by
  have hSize := l.toNat_lt
  have hLength := expandToken_length hToken
  intro x hx
  unfold Window.tokenReach at hx
  unfold tokenSize at hLength
  unfold expandToken at hToken
  split at hx
  next => cases hx
  next hCopy =>
    rw [if_neg hCopy] at hToken hLength
    have hd : dbuf.toNat ≤ a.w := by
      rw [copyText] at hToken
      split at hToken
      · omega
      · cases hToken
    obtain ⟨r, hRun, hNext⟩ := leftBorder_returns hScan hDept (l.toNat + 3) 0 hd
    rw [hRun] at hx
    rcases r with m | ⟨a₁, j, hit⟩
    · cases hx
    · cases hit with
      | true => cases hx
      | false =>
        obtain ⟨hLe, hj, hw₁⟩ := hNext _ rfl
        simp only at hLe hj hw₁
        have hRest := roundsReach_le hScan (show j ≤ l.toNat + 3 by omega)
          (show dbuf.toNat ≤ a₁.w by omega) x hx
        omega

theorem tokensReach_le {l : Nat → UInt8} {dbuf : Nat → UInt16} {rest i : Nat}
    {t t' : List UInt8} (hExpand : expand l dbuf rest i t = some t') (hw : a.w = t.length) :
    ∀ x ∈ a.tokensReach S l dbuf rest i, x ≤ t'.length + 258 := by
  induction rest generalizing a i t with
  | zero => simp [Window.tokensReach]
  | succ rest ih =>
    obtain ⟨t₁, hToken, hRest⟩ := Option.bind_eq_some_iff.mp hExpand
    have hPrefix := expand_prefix hRest
    have hLe := hPrefix.length_le
    intro x hx
    unfold Window.tokensReach at hx
    rcases List.mem_append.mp hx with hx | hx
    · have := tokenReach_le hScan hDept (l i) (dbuf i) hToken hw x hx
      omega
    · obtain ⟨r, hRun, hNext⟩ := token_returns hScan hDept (l i) (dbuf i) hToken hw
      rw [hRun] at hx
      rcases r with m | ⟨a₁, hit⟩
      · cases hx
      · cases hit with
        | true => cases hx
        | false => exact ih hRest (hNext _ rfl rfl) x hx

end Short

/-- A text that ends 258 bytes before `WSIZE` stays inside all buffers. -/
theorem fits_of_size {acsm acsm' : AcsmxStruct} (hCompile : acsmcompile acsm = some acsm')
    (hNonempty : ∀ p ∈ acsm.acsmPatterns, p ≠ []) {l : Nat → UInt8} {dbuf : Nat → UInt16}
    {lastLit : Nat} {t : List UInt8} (hExpand : expansion l dbuf lastLit = some t)
    (hSize : t.length + 258 < wsize) (m : Memory) : Fits acsm' l dbuf lastLit m := by
  constructor
  · intro x hx
    rw [reach_eq hCompile hNonempty] at hx
    have hLe := tokensReach_le (fun _ _ => ⟨_, rfl⟩) (fun _ => ⟨_, rfl⟩) hExpand rfl x hx
    omega
  · intro o i _ _
    obtain ⟨t', hWhole, hLength⟩ := expand_first hExpand (Nat.le_refl lastLit)
    obtain rfl := Option.some.inj (hWhole.symm.trans hExpand)
    have hMono := tokensSize_mono l dbuf (Nat.min_le_left lastLit (i + 10))
    rw [← hLength] at hMono
    exact Nat.lt_of_le_of_lt (Nat.le_trans hMono (Nat.le_add_right _ 258)) hSize

/-- The letters `abc` and a copy of all three, without the pattern `abd`. -/
theorem staysInside_iff_abcabc : ∃ acsm',
    acsmcompile (acsmaddPattern acsmnew [97, 98, 100]) = some acsm' ∧
    StaysInside acsm' (fun i => [97, 98, 99, 0].getD i 0) (fun i => [0, 0, 0, 3].getD i 0) 4
      zeroMemory := by
  obtain ⟨acsm', -, -, hCompile, -⟩ := acsmcompile_holds (acsmaddPattern acsmnew [97, 98, 100])
  have hExpand : expansion (fun i => [97, 98, 99, 0].getD i 0) (fun i => [0, 0, 0, 3].getD i 0) 4 =
      some [97, 98, 99, 97, 98, 99] := by decide
  have hFits := fits_of_size hCompile (by decide) hExpand (by decide) zeroMemory
  exact ⟨acsm', hCompile,
    (staysInside_iff _ acsm' hCompile (by decide) _ _ 4 _ hExpand zeroMemory).mpr hFits⟩

/-! ### A text of one letter -/

section Letter

variable {S : Scanner σ} {quiet : σ → Prop} {a : Window σ}

/-- The window after bytes `a`, before statuses that are still clear. -/
structure Plain (quiet : σ → Prop) (a : Window σ) : Prop where
  state : quiet a.state
  pos : 0 < a.w
  letter : a.win (a.w - 1) = 97
  clear : ∀ x, a.w ≤ x → a.st x = 0

theorem put_plain {state : σ} (hState : quiet state) (hClear : ∀ x, a.w ≤ x → a.st x = 0) :
    Plain quiet (a.put 97 state 2) where
  state := hState
  pos := Nat.succ_pos a.w
  letter := Function.update_self _ _ _
  clear x hx := by
    have hx' : a.w + 1 ≤ x := hx
    exact (Function.update_of_ne (by omega) _ _).trans (hClear x (by omega))

variable (hQuiet : ∀ s, quiet s → S.dept s = some 0 ∧ ∃ s',
  S.scan s 97 = some (s', 2) ∧ quiet s')

include hQuiet

theorem Plain.scanRun (h : Plain quiet a) (rest j : Nat) (hw : a.w + rest ≤ wsize - 1) :
    ∃ a', a.scanRun S 1 rest j = pure (a', j + rest, false) ∧ a'.w = a.w + rest ∧
      Plain quiet a' := by
  induction rest generalizing a j with
  | zero => exact ⟨a, rfl, rfl, h⟩
  | succ rest ih =>
    obtain ⟨-, s', hScan, hState⟩ := hQuiet a.state h.state
    rw [← h.letter] at hScan
    obtain ⟨a', hRun, hw', hPlain⟩ := ih (put_plain hState h.clear) (j + 1)
      (show a.w + 1 + rest ≤ wsize - 1 by omega)
    refine ⟨a', ?_, by rw [hw']; show a.w + 1 + rest = _; omega, hPlain⟩
    unfold Window.scanRun
    rw [if_pos (show 1 ≤ a.w from h.pos), copyByte_eq hScan (by omega), pure_bind, h.letter,
      show j + (rest + 1) = j + 1 + rest by omega]
    exact hRun

omit hQuiet in
/-- The look-ahead stops at the first status that is not written yet. -/
theorem Plain.firstMatch_le (h : Plain quiet a) {len j : Nat} (hj : j + 1 < len) :
    a.firstMatch 1 len j ≤ j + 1 := by
  have hPos := h.pos
  rw [firstMatch_step a.toMemory (show j < len by omega)]
  split
  · omega
  · rw [firstMatch_step a.toMemory hj, if_pos ⟨by omega, h.clear _ (by omega)⟩]

theorem Plain.round (h : Plain quiet a) {len j : Nat} (hj : j < len)
    (hw : a.w + min 2 (len - j) ≤ wsize - 1) :
    ∃ a' j', a.round S 1 len j = pure (a', j', false) ∧ j < j' ∧ j' ≤ j + 2 ∧
      j' ≤ len ∧
      a'.w + j = a.w + j' ∧ Plain quiet a' := by
  obtain ⟨hk, hkLen⟩ := a.firstMatch_bounds (d := 1) hj
  have hNear : a.firstMatch 1 len j ≤ j + 1 := by
    by_cases hLast : j + 1 < len
    · exact h.firstMatch_le hLast
    · omega
  unfold Window.round
  generalize a.firstMatch 1 len j = k at hk hkLen hNear
  obtain ⟨hp, hpk⟩ := a.lastShallow_bounds (d := 1) hk
  have hSkip : a.skip S 1 j (a.lastShallow 1 j k) = pure (a, j, false) :=
    if_neg (by unfold cDepth; omega)
  obtain ⟨a', hRun, hw', hPlain⟩ := h.scanRun hQuiet (k + 1 - j) j (by omega)
  refine ⟨a', k + 1, ?_, by omega, by omega, by omega, by omega, hPlain⟩
  simp only [hSkip, hRun, pure_bind, Bool.or_self]

theorem Plain.rounds (h : Plain quiet a) {len fuel j : Nat} (hj : j ≤ len)
    (hFuel : len ≤ j + fuel) (hw : a.w + (len - j) ≤ wsize - 1) :
    ∃ a', a.rounds S 1 len fuel j = pure (a', false) ∧ a'.w + j = a.w + len ∧
      Plain quiet a' := by
  induction fuel generalizing a j with
  | zero =>
    obtain rfl : j = len := by omega
    exact ⟨a, by rw [Window.rounds, if_neg (Nat.lt_irrefl j)], rfl, h⟩
  | succ fuel ih =>
    unfold Window.rounds
    by_cases hLt : j < len
    · obtain ⟨a₁, j₁, hRun, hj₁, -, hLen, hw₁, hPlain⟩ := h.round hQuiet hLt (by omega)
      obtain ⟨a₂, hRest, hw₂, hPlain₂⟩ := ih hPlain hLen (by omega) (by omega)
      refine ⟨a₂, ?_, by omega, hPlain₂⟩
      rw [if_pos hLt, hRun, pure_bind]
      exact hRest
    · obtain rfl : j = len := by omega
      exact ⟨a, by rw [if_neg (Nat.lt_irrefl j)], rfl, h⟩

/-- Near the end of the arrays, the look-ahead passes `WSIZE`. -/
theorem Plain.rounds_reach (h : Plain quiet a) {len fuel j : Nat} (hj : j < 18) (hLen : 20 ≤ len)
    (hFuel : len ≤ j + fuel) (hw : a.w + 31 = wsize + j) :
    ∃ x ∈ a.roundsReach S 1 len fuel j, wsize ≤ x := by
  induction fuel generalizing a j with
  | zero => omega
  | succ fuel ih =>
    unfold Window.roundsReach
    rw [if_pos (show j < len by omega)]
    by_cases hEnd : 16 ≤ j
    · refine ⟨a.w + a.firstMatch 1 len j - 1, ?_, ?_⟩
      · exact List.mem_append_left _ List.mem_cons_self
      · have hk := (a.firstMatch_bounds (d := 1) (show j < len by omega)).1
        omega
    · obtain ⟨a₁, j₁, hRun, hj₁, hNear, -, hw₁, hPlain⟩ :=
        h.round (S := S) hQuiet (show j < len by omega) (by unfold wsize at hw ⊢; omega)
      obtain ⟨x, hx, hLe⟩ := ih hPlain (j := j₁) (by omega) (by omega) (by omega)
      refine ⟨x, List.mem_append_right _ ?_, hLe⟩
      rw [hRun]
      exact hx

theorem Plain.leftBorder (h : Plain quiet a) (rest : Nat) :
    a.leftBorder S 1 (rest + 1) 0 = pure (a, 0, false) := by
  rw [Window.leftBorder, (hQuiet a.state h.state).1]
  rfl

theorem Plain.token (h : Plain quiet a) (l : UInt8) (hw : a.w + (l.toNat + 3) ≤ wsize - 1) :
    ∃ a', a.token S l 1 = pure (a', false) ∧ a'.w = a.w + (l.toNat + 3) ∧ Plain quiet a' := by
  generalize hLen : l.toNat + 2 = len
  obtain ⟨a', hRun, hw', hPlain⟩ := h.rounds (S := S) hQuiet (Nat.zero_le (len + 1))
    (show len + 1 ≤ 0 + (len + 1) by omega) (by omega)
  refine ⟨a', ?_, by omega, hPlain⟩
  rw [Window.token, if_neg (by decide), show l.toNat + 3 = len + 1 by omega, Window.copy,
    show (1 : UInt16).toNat = 1 from rfl, h.leftBorder hQuiet, pure_bind]
  exact hRun

/-- Copies of one letter keep the window plain. -/
theorem Plain.tokens (h : Plain quiet a) {l : Nat → UInt8} {dbuf : Nat → UInt16} {b : UInt8}
    {size : Nat} (hSize : b.toNat + 3 = size) (n rest i : Nat)
    (hTokens : ∀ i' < n, l (i + i') = b ∧ dbuf (i + i') = 1)
    (hw : a.w + size * n ≤ wsize - 1) :
    ∃ a', a'.w = a.w + size * n ∧ Plain quiet a' ∧
      ∀ x ∈ a'.tokensReach S l dbuf rest (i + n), x ∈ a.tokensReach S l dbuf
        (n + rest) i := by
  induction n generalizing a i with
  | zero =>
    refine ⟨a, rfl, h, fun x hx => ?_⟩
    rwa [Nat.zero_add]
  | succ n ih =>
    rw [Nat.mul_succ] at hw
    obtain ⟨hl, hd⟩ := hTokens 0 (Nat.succ_pos n)
    rw [Nat.add_zero] at hl hd
    obtain ⟨a₁, hRun, hw₁, hPlain⟩ := h.token (S := S) hQuiet b (by omega)
    obtain ⟨a', hw', hPlain', hReach⟩ := ih hPlain (i + 1)
      (fun i' hi' => by
        rw [show i + 1 + i' = i + (i' + 1) by omega]
        exact hTokens (i' + 1) (by omega)) (by omega)
    refine ⟨a', by rw [Nat.mul_succ]; omega, hPlain', fun x hx => ?_⟩
    rw [show i + (n + 1) = i + 1 + n by omega] at hx
    rw [show n + 1 + rest = n + rest + 1 by omega, Window.tokensReach, hl, hd, hRun]
    exact List.mem_append_right _ (hReach x hx)

/-- The copy behind them reads ahead of `st`. -/
theorem Plain.token_reach (h : Plain quiet a) (l : UInt8) (hLen : 17 ≤ l.toNat)
    (hw : a.w + 31 = wsize) : ∃ x ∈ a.tokenReach S l 1, wsize ≤ x := by
  obtain ⟨x, hx, hLe⟩ := h.rounds_reach (S := S) hQuiet (show 0 < 18 by decide)
    (show 20 ≤ l.toNat + 3 by omega) (show l.toNat + 3 ≤ 0 + (l.toNat + 3) by omega) hw
  refine ⟨x, ?_, hLe⟩
  rw [Window.tokenReach, if_neg (by decide), show (1 : UInt16).toNat = 1 from rfl,
    h.leftBorder hQuiet]
  exact hx

/-- A letter and enough copies of it pass the end of `st`, on the arrays of the program's start. -/
theorem letters_reach (hRoot : quiet S.root) {l : Nat → UInt8} {dbuf : Nat → UInt16} {b : UInt8}
    {size n : Nat} (hSize : b.toNat + 3 = size) (hLong : 20 ≤ size) (hn : size * n + 32 = wsize)
    (hFirst : l 0 = 97 ∧ dbuf 0 = 0) (hCopies : ∀ i, l (i + 1) = b ∧ dbuf (i + 1) = 1) :
    ∃ x ∈ Window.tokensReach S l dbuf (n + 2) 0 ⟨{ zeroMemory with w := 0 }, S.root⟩,
      wsize ≤ x := by
  obtain ⟨-, s, hScan, hState⟩ := hQuiet S.root hRoot
  let a₀ : Window σ := ⟨{ zeroMemory with w := 0 }, S.root⟩
  have hRun : a₀.token S 97 0 = pure (a₀.put 97 s 2, false) := by
    simp only [Window.token, Window.literal, a₀, hScan, lift_some, pure_bind, if_true]
    rfl
  have hPlain : Plain quiet (a₀.put 97 s 2) := put_plain hState fun _ _ => rfl
  obtain ⟨a', hw', hPlain', hReach⟩ := hPlain.tokens (S := S) hQuiet hSize n 1 1
    (fun i' _ => by rw [Nat.add_comm]; exact hCopies i')
    (show 0 + 1 + size * n ≤ wsize - 1 by omega)
  replace hw' : a'.w = 0 + 1 + size * n := hw'
  obtain ⟨x, hx, hLe⟩ := hPlain'.token_reach (S := S) hQuiet b (by omega) (by omega)
  refine ⟨x, ?_, hLe⟩
  rw [Window.tokensReach, hFirst.1, hFirst.2, hRun]
  apply List.mem_append_right
  apply hReach
  rw [Window.tokensReach, Nat.add_comm 1 n, (hCopies n).1, (hCopies n).2]
  exact List.mem_append_left _ hx

end Letter

theorem longestPrefix_letters {t : List UInt8} (h : ∀ c ∈ t, c = 97) :
    longestPrefix [[98]] t = [] := by
  have hSuffix : longestPrefix [[98]] t <:+ t := longestSuffix_suffix _ t
  rcases longestSuffix_mem (V := PrefixOfSome [[98]]) PrefixOfSome.nil
    t with hNil | ⟨p, hp, hPrefix⟩
  · exact hNil
  · obtain rfl := List.mem_singleton.mp hp
    by_contra hNonempty
    obtain ⟨c, rest, hCons⟩ := List.exists_cons_of_ne_nil hNonempty
    rw [hCons] at hSuffix
    rw [show longestSuffix (PrefixOfSome [[98]]) t = c :: rest from hCons] at hPrefix
    obtain ⟨rfl, -⟩ := List.cons_prefix_cons.mp hPrefix
    exact absurd (h 98 (hSuffix.subset List.mem_cons_self)) (by decide)

/-- The automaton of the pattern `b` stays shallow on a text of the letter `a`. -/
theorem letters_quiet {T : Scanner σ} {f : List UInt8 → σ}
    (h : Simulates (textScanner [[98]]) T f) (s : σ)
    (hs : ∃ t, s = f t ∧ ∀ c ∈ t, c = 97) :
    T.dept s = some 0 ∧ ∃ s', T.scan s 97 = some (s', 2) ∧ ∃ t, s' = f t ∧
      ∀ c ∈ t, c = 97 := by
  obtain ⟨t, rfl, hLetters⟩ := hs
  have hNext : ∀ c ∈ t ++ [97], c = 97 := fun c hc => by
    rcases List.mem_append.mp hc with hc | hc
    · exact hLetters c hc
    · exact List.mem_singleton.mp hc
  have hNone : ¬∃ p ∈ [[98]], p <:+ t ++ [97] := by
    rintro ⟨p, hp, hSuffix⟩
    obtain rfl := List.mem_singleton.mp hp
    exact absurd (hNext 98 (hSuffix.subset List.mem_cons_self)) (by decide)
  refine ⟨?_, f (t ++ [97]), ?_, t ++ [97], rfl, hNext⟩
  · simp only [h.dept, textScanner, longestPrefix_letters hLetters, List.length_nil]
  · simp only [h.scan, textScanner, if_neg hNone, longestPrefix_letters hNext]
    rfl

theorem copyText_letters (n : Nat) {t : List UInt8} (h : 0 < t.length) :
    ∃ t', copyText 1 n t = some t' ∧ 0 < t'.length := by
  induction n generalizing t with
  | zero => exact ⟨t, rfl, h⟩
  | succ n ih =>
    obtain ⟨b, hGet⟩ : ∃ b, t[t.length - 1]? = some b :=
      ⟨_, List.getElem?_eq_getElem (by omega)⟩
    rw [copyText, if_pos (show 1 ≤ t.length from h), hGet]
    exact ih (by simp)

theorem expand_letters (l : Nat → UInt8) (dbuf : Nat → UInt16) (rest i : Nat) {t : List UInt8}
    (hCopies : ∀ i', i ≤ i' → dbuf i' = 1) (h : 0 < t.length) :
    ∃ t', expand l dbuf rest i t = some t' := by
  induction rest generalizing i t with
  | zero => exact ⟨t, rfl⟩
  | succ rest ih =>
    obtain ⟨t₁, hCopy, hPos⟩ := copyText_letters ((l i).toNat + 3) h
    obtain ⟨t', hRest⟩ := ih (i + 1) (fun i' hi' => hCopies i' (by omega)) hPos
    refine ⟨t', ?_⟩
    rw [expand, expandToken, hCopies i (Nat.le_refl i), if_neg (by decide),
      show (1 : UInt16).toNat = 1 from rfl, hCopy]
    exact hRest

/-- The letter `a` and 2033 copies of 258 more, without the pattern `b`: in the last copy the loop
over `fk` reads `st` at `WSIZE`. -/
theorem staysInside_fails :
    ¬∀ (acsm acsm' : AcsmxStruct), acsmcompile acsm = some acsm' →
      (∀ p ∈ acsm.acsmPatterns, p ≠ []) →
      ∀ (l : Nat → UInt8) (dbuf : Nat → UInt16) (lastLit : Nat)
      (t : List UInt8), lastLit ≤ 0x8000 → expansion l dbuf lastLit = some t →
      StaysInside acsm' l dbuf lastLit zeroMemory := by
  intro h
  let l : Nat → UInt8 := fun i => if i = 0 then 97 else 255
  let dbuf : Nat → UInt16 := fun i => if i = 0 then 0 else 1
  have hCopies : ∀ i, l (i + 1) = 255 ∧ dbuf (i + 1) = 1 := fun i =>
    ⟨if_neg (Nat.succ_ne_zero i), if_neg (Nat.succ_ne_zero i)⟩
  obtain ⟨acsm', b, word, hCompile, -, hHolds, hCompiled⟩ :=
    acsmcompile_holds (acsmaddPattern acsmnew [98])
  obtain ⟨t, hExpand⟩ := expand_letters l dbuf 2033 1 (t := [97])
    (fun i' hi' => if_neg (by omega)) (by decide)
  have hFirst : ∀ n, expansion l dbuf (n + 1) = expand l dbuf n 1 [97] := fun n => rfl
  obtain ⟨o, hRun, -⟩ := h _ acsm' hCompile (by decide) l dbuf (2033 + 1) t (by decide)
    ((hFirst 2033).trans hExpand)
  have hSimulates := hHolds.simulates hCompiled (by decide)
  obtain ⟨x, hx, hLe⟩ := letters_reach (letters_quiet hSimulates)
    ⟨[], hSimulates.root, by simp⟩ (l := l) (b := 255) (n := 2032) rfl (by decide)
    (by decide) ⟨rfl, rfl⟩ hCopies
  rw [acchWithin_eq, if_neg fun hReach => absurd (hReach x hx) (Nat.not_lt.mpr hLe)] at hRun
  cases hRun

end Shutter.Acch
