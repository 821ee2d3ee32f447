import Shutter.Acch.Simulate

/-! What `acch` finds.  The bytes that it copies without a scan are never looked at.  It skips those
in front of a byte whose status reads 2, and restarts at the last three of them.  No pattern begins
before them and goes on behind that byte if the byte is shallow.  The status can belong to another
byte once the left border has moved `w`, and then a pattern can lie across the bytes skipped. -/

namespace Shutter.Acch

open Shutter.Acsm Shutter.Library

/-! ### The text of the tokens -/

/-- A copy of `n` bytes from the distance `d`. -/
def copyText (d : Nat) : Nat → List UInt8 → Option (List UInt8)
  | 0, t => some t
  | n + 1, t => if d ≤ t.length then do
      let b ← t[t.length - d]?
      copyText d n (t ++ [b])
    else none

/-- The text after one more token. -/
def expandToken (l : UInt8) (dbuf : UInt16) (t : List UInt8) : Option (List UInt8) :=
  if dbuf = 0 then some (t ++ [l]) else copyText dbuf.toNat (l.toNat + 3) t

/-- The text after `rest` more tokens. -/
def expand (l : Nat → UInt8) (dbuf : Nat → UInt16) : Nat → Nat → List UInt8 →
    Option (List UInt8)
  | 0, _, t => some t
  | rest + 1, i, t => do
    let t ← expandToken (l i) (dbuf i) t
    expand l dbuf rest (i + 1) t

/-- The LZ77 expansion of the tokens.  There is none if a distance exceeds the bytes before. -/
def expansion (l : Nat → UInt8) (dbuf : Nat → UInt16) (lastLit : Nat) : Option (List UInt8) :=
  expand l dbuf lastLit 0 []

theorem copyText_prefix {d n : Nat} {t t' : List UInt8} (h : copyText d n t = some t') :
    t <+: t' := by
  induction n generalizing t with
  | zero =>
    obtain rfl : t = t' := Option.some.inj h
    exact List.prefix_rfl
  | succ n ih =>
    unfold copyText at h
    split at h
    · obtain ⟨b, -, hRest⟩ := Option.bind_eq_some_iff.mp h
      exact (List.prefix_append t [b]).trans (ih hRest)
    · cases h

theorem copyText_length {d n : Nat} {t t' : List UInt8} (h : copyText d n t = some t') :
    t'.length = t.length + n := by
  induction n generalizing t with
  | zero =>
    obtain rfl : t = t' := Option.some.inj h
    rfl
  | succ n ih =>
    unfold copyText at h
    split at h
    · obtain ⟨b, -, hRest⟩ := Option.bind_eq_some_iff.mp h
      rw [ih hRest, List.length_append, List.length_singleton]
      omega
    · cases h

theorem expand_prefix {l : Nat → UInt8} {dbuf : Nat → UInt16} {rest i : Nat} {t t' : List UInt8}
    (h : expand l dbuf rest i t = some t') : t <+: t' := by
  induction rest generalizing i t with
  | zero =>
    obtain rfl : t = t' := Option.some.inj h
    exact List.prefix_rfl
  | succ rest ih =>
    obtain ⟨t₁, hToken, hRest⟩ := Option.bind_eq_some_iff.mp h
    refine List.IsPrefix.trans ?_ (ih hRest)
    unfold expandToken at hToken
    split at hToken
    · obtain rfl := Option.some.inj hToken
      exact List.prefix_append _ _
    · exact copyText_prefix hToken

/-- The bytes that have been written to `win`. -/
def Memory.text (m : Memory) : List UInt8 := (List.range m.w).map m.win

@[simp] theorem Memory.text_length (m : Memory) : m.text.length = m.w := by simp [Memory.text]

theorem Memory.text_getElem? {m : Memory} {i : Nat} (h : i < m.w) :
    m.text[i]? = some (m.win i) := by
  simp [Memory.text, h]

/-- A byte written at `w` extends the text. -/
theorem Memory.text_update (m : Memory) (b : UInt8) (st : Nat → Nat) :
    (⟨Function.update m.win m.w b, st, m.w + 1⟩ : Memory).text = m.text ++ [b] := by
  simp only [Memory.text, List.range_succ, List.map_append, List.map_singleton,
    Function.update_self, List.append_cancel_right_eq]
  refine List.map_congr_left fun i hi => ?_
  rw [Function.update_of_ne (Nat.ne_of_lt (List.mem_range.mp hi))]

/-! ### The bytes taken for shallow -/

section Taken

variable {σ : Type}

/-- The byte of the text that a round takes for a shallow one, if it skips the bytes before: the
byte `p` of the copy, where `w` stands at its byte `j`. -/
def Window.roundTaken (d len j : Nat) (a : Window σ) : List Nat :=
  let p := a.lastShallow d j (a.firstMatch d len j)
  if j + cDepth ≤ p then [a.w + (p - j)] else []

/-- The bytes that the rounds of a copy token take for shallow ones. -/
def Window.roundsTaken (S : Scanner σ) (d len : Nat) : Nat → Nat → Window σ → List Nat
  | 0, _, _ => []
  | fuel + 1, j, a =>
    if j < len then
      a.roundTaken d len j ++
        match (a.round S d len j).run with
        | some (.ok (a, j, false)) => roundsTaken S d len fuel j a
        | _ => []
    else []

/-- The bytes that a token takes for shallow ones. -/
def Window.tokenTaken (S : Scanner σ) (l : UInt8) (dbuf : UInt16) (a : Window σ) : List Nat :=
  if dbuf = 0 then []
  else match (a.leftBorder S dbuf.toNat (l.toNat + 3) 0).run with
    | some (.ok (a, j, false)) => a.roundsTaken S dbuf.toNat (l.toNat + 3) (l.toNat + 3) j
    | _ => []

/-- The bytes that the tokens take for shallow ones. -/
def Window.tokensTaken (S : Scanner σ) (l : Nat → UInt8) (dbuf : Nat → UInt16) :
    Nat → Nat → Window σ → List Nat
  | 0, _, _ => []
  | rest + 1, i, a =>
    a.tokenTaken S (l i) (dbuf i) ++
      match (a.token S (l i) (dbuf i)).run with
      | some (.ok (a, false)) => tokensTaken S l dbuf rest (i + 1) a
      | _ => []

end Taken

/-- The positions of the text whose status the loop over `fp` reads as 2 before the bytes in front
of them are skipped, with the patterns in place of the table. -/
def takenShallow (ps : List Pattern) (l : Nat → UInt8) (dbuf : Nat → UInt16) (lastLit : Nat)
    (m : Memory) : List Nat :=
  Window.tokensTaken (textScanner ps) l dbuf lastLit 0 ⟨{ m with w := 0 }, []⟩

/-- `scanAC` gives the last byte of the text the status 1. -/
def Deep (ps : List Pattern) (t : List UInt8) : Prop :=
  (¬∃ p ∈ ps, p <:+ t) ∧ cDepth ≤ (longestPrefix ps t).length

/-- Some pattern occurs in the text. -/
def Contains (ps : List Pattern) (t : List UInt8) : Prop := ∃ p ∈ ps, p <:+: t

instance (ps : List Pattern) (t : List UInt8) : Decidable (Contains ps t) :=
  inferInstanceAs (Decidable (∃ p ∈ ps, p <:+: t))

instance (ps : List Pattern) (t : List UInt8) : Decidable (Deep ps t) :=
  inferInstanceAs (Decidable (_ ∧ _))

theorem Contains.mono {ps : List Pattern} {t t' : List UInt8} (h : Contains ps t)
    (hPrefix : t <+: t') : Contains ps t' := by
  obtain ⟨p, hp, hInfix⟩ := h
  exact ⟨p, hp, hInfix.trans hPrefix.isInfix⟩

/-! ### One byte -/

/-- The matcher follows the text: its state has the longest prefix that the text has, and no pattern
has ended so far. -/
structure Follows (ps : List Pattern) (a : Window (List UInt8)) : Prop where
  suffix : a.state <:+ a.text
  live : longestPrefix ps a.state = longestPrefix ps a.text
  unseen : ¬Contains ps a.text

/-- The window after the bytes `v` have been scanned. -/
structure Scanned (a a' : Window (List UInt8)) (v : List UInt8) : Prop where
  text : a'.text = a.text ++ v
  state : a'.state = a.state ++ v

section Byte

variable {ps : List Pattern} {a a' : Window (List UInt8)} {v : List UInt8}

theorem Scanned.refl (a : Window (List UInt8)) : Scanned a a [] := ⟨by simp, by simp⟩

theorem Scanned.trans {a'' : Window (List UInt8)} {v' : List UInt8} (h : Scanned a a' v)
    (h' : Scanned a' a'' v') : Scanned a a'' (v ++ v') :=
  ⟨by rw [h'.text, h.text, List.append_assoc], by rw [h'.state, h.state, List.append_assoc]⟩

theorem Scanned.suffix (h : Scanned a a' v) (hSuffix : a.state <:+ a.text) :
    a'.state <:+ a'.text := by
  rw [h.text, h.state]
  exact List.suffix_append_self_iff.mpr hSuffix

theorem Scanned.w (h : Scanned a a' v) : a'.w = a.w + v.length := by
  rw [← Memory.text_length, h.text, List.length_append, Memory.text_length]

theorem put_scanned (a : Window (List UInt8)) (b : UInt8) (status : Nat) :
    Scanned a (a.put b (a.state ++ [b]) status) [b] := ⟨Memory.text_update _ _ _, rfl⟩

/-- Bytes that end no pattern keep the matcher in step. -/
theorem Follows.scanned (h : Follows ps a) (hScanned : Scanned a a' v)
    (hNone : ¬Contains ps a'.text) : Follows ps a' :=
  ⟨hScanned.suffix h.suffix, by
    rw [hScanned.text, hScanned.state]
    exact longestPrefix_append_congr h.live v, hNone⟩

/-- A pattern that ends at the state ends in the text. -/
theorem contains_of_state {b : UInt8} (hSuffix : a.state <:+ a.text)
    (hHit : ∃ p ∈ ps, p <:+ a.state ++ [b]) : Contains ps (a.text ++ [b]) := by
  obtain ⟨p, hp, hEnd⟩ := hHit
  exact ⟨p, hp, (hEnd.trans (List.suffix_append_self_iff.mpr hSuffix)).isInfix⟩

/-- A byte at which the state has no match is not the end of a first pattern. -/
theorem Follows.miss (h : Follows ps a) {b : UInt8} (hMiss : ¬∃ p ∈ ps, p <:+ a.state ++ [b]) :
    ¬Contains ps (a.text ++ [b]) := by
  rintro ⟨p, hp, hInfix⟩
  rcases List.infix_concat_iff.mp hInfix with hEnd | hInfix
  · -- the pattern begins itself, so it is part of the longest prefix
    have hLive := suffix_longestSuffix (PrefixOfSome.of_mem hp) hEnd
    rw [← longestPrefix, ← longestPrefix_append_congr h.live [b]] at hLive
    exact hMiss ⟨p, hp, hLive.trans (longestSuffix_suffix _ _)⟩
  · exact h.unseen ⟨p, hp, hInfix⟩

end Byte

/-! ### The loops -/

/-- A text that `n` more bytes of a copy complete. -/
def Completes {σ : Type} (d n : Nat) (a : Window σ) (t : List UInt8) : Prop :=
  copyText d n a.text = some t ∧ 0 < d ∧ d ≤ a.w

section Copies

variable {σ : Type} {a : Window σ} {d n : Nat} {t : List UInt8}

theorem Completes.length (h : Completes d n a t) : t.length = a.w + n := by
  rw [copyText_length h.1, Memory.text_length]

theorem Completes.begins (h : Completes d n a t) : a.text <+: t := copyText_prefix h.1

theorem Completes.next (h : Completes d (n + 1) a t) {a' : Window σ}
    (hText : a'.text = a.text ++ [a.win (a.w - d)]) : Completes d n a' t := by
  obtain ⟨hCopy, hd, hLe⟩ := h
  have hw : a'.w = a.w + 1 := by
    rw [← Memory.text_length, hText, List.length_append, Memory.text_length,
      List.length_singleton]
  refine ⟨?_, hd, by omega⟩
  rw [copyText, if_pos (by simpa using hLe), Memory.text_length,
    Memory.text_getElem? (by omega)] at hCopy
  rw [hText]
  exact hCopy

theorem copyByte_eq {S : Scanner σ} {state : σ} {status : Nat}
    (hScan : S.scan a.state (a.win (a.w - d)) = some (state, status)) (hw : ¬wsize - 1 ≤ a.w) :
    a.copyByte S d = pure (a.put (a.win (a.w - d)) state status, status == 0) := by
  simp only [Window.copyByte, hScan, lift_some, pure_bind]
  rw [if_neg hw]

theorem Completes.skipRun (rest : Nat) (hCopy : Completes d (n + rest) a t) :
    ∃ a', a.skipRun d rest = some a' ∧ a'.w = a.w + rest ∧ Completes d n a' t := by
  induction rest generalizing a with
  | zero => exact ⟨a, rfl, rfl, hCopy⟩
  | succ rest ih =>
    unfold Window.skipRun
    rw [if_pos hCopy.2.2]
    let b := a.win (a.w - d)
    let a₁ : Window σ := { a with win := Function.update a.win a.w b, w := a.w + 1 }
    have hText : a₁.text = a.text ++ [b] := Memory.text_update _ _ _
    obtain ⟨a', hRun, hw, hCopy'⟩ := ih (hCopy.next hText)
    exact ⟨a', hRun, by rw [hw]; show a.w + 1 + rest = _; omega, hCopy'⟩

end Copies

/-- Each byte of a copy is the one at the distance `d` before it. -/
theorem copyText_getElem? {d n : Nat} {t t' : List UInt8} (h : copyText d n t = some t') {i : Nat}
    (hi : t.length ≤ i) (hLt : i < t'.length) : t'[i]? = t'[i - d]? := by
  induction n generalizing t with
  | zero =>
    obtain rfl : t = t' := Option.some.inj h
    omega
  | succ n ih =>
    have hLength := copyText_length h
    unfold copyText at h
    split at h
    · obtain ⟨b, hb, hRest⟩ := Option.bind_eq_some_iff.mp h
      by_cases hLater : t.length + 1 ≤ i
      · exact ih hRest (by simpa using hLater)
      · obtain rfl : i = t.length := by omega
        obtain ⟨r, rfl⟩ := copyText_prefix hRest
        have hBefore := (List.getElem?_eq_some_iff.mp hb).1
        rw [List.append_assoc, List.getElem?_append_left hBefore, hb]
        simp
    · cases h

section Loops

variable {ps : List Pattern} {a : Window (List UInt8)} {d n : Nat} {t : List UInt8}

/-- A scanned byte of a copy. -/
theorem copyByte_scanned (ps : List Pattern) (hCopy : Completes d (n + 1) a t)
    (hFits : t.length < wsize - 1) :
    ∃ a' hit b, a.copyByte (textScanner ps) d = pure (a', hit) ∧ Scanned a a' [b] ∧
      Completes d n a' t ∧ (hit = true ↔ ∃ p ∈ ps, p <:+ a.state ++ [b]) := by
  have hLength := hCopy.length
  let b := a.win (a.w - d)
  let status := if ∃ p ∈ ps, p <:+ a.state ++ [b] then 0
    else if cDepth ≤ (longestPrefix ps (a.state ++ [b])).length then 1 else 2
  have hScanned := put_scanned a b status
  refine ⟨a.put b (a.state ++ [b]) status, status == 0, b, ?_, hScanned,
    hCopy.next hScanned.text, ?_⟩
  · exact copyByte_eq rfl (by omega)
  · by_cases hHit : ∃ p ∈ ps, p <:+ a.state ++ [b]
    · simp [status, hHit]
    · refine iff_of_false ?_ hHit
      simp only [status, if_neg hHit]
      split <;> simp

/-- In a text without a pattern the loops scan on, whatever the state has lost. -/
theorem scanRun_scanned (hNone : ¬Contains ps t) (hSuffix : a.state <:+ a.text) (rest j : Nat)
    (hCopy : Completes d (n + rest) a t) (hFits : t.length < wsize - 1) :
    ∃ a' v, a.scanRun (textScanner ps) d rest j = pure (a', j + rest, false) ∧
      v.length = rest ∧
      Scanned a a' v ∧ Completes d n a' t := by
  induction rest generalizing a j with
  | zero => exact ⟨a, [], rfl, rfl, Scanned.refl a, hCopy⟩
  | succ rest ih =>
    obtain ⟨a₁, hit, b, hRun, hScanned, hNext, hHit⟩ := copyByte_scanned ps hCopy hFits
    have hQuiet : hit = false := by
      refine Bool.eq_false_iff.mpr fun hTrue => hNone ?_
      exact (contains_of_state hSuffix (hHit.mp hTrue)).mono (hScanned.text ▸ hNext.begins)
    subst hQuiet
    obtain ⟨a₂, v, hRest, hv, hScanned', hNext'⟩ := ih (hScanned.suffix hSuffix) (j + 1) hNext
    refine ⟨a₂, b :: v, ?_, by rw [List.length_cons, hv], hScanned.trans hScanned', hNext'⟩
    unfold Window.scanRun
    rw [if_pos hCopy.2.2, hRun, pure_bind, show j + (rest + 1) = j + 1 + rest by omega]
    exact hRest

theorem Follows.leftBorder (h : Follows ps a) (rest j : Nat) (hCopy : Completes d rest a t)
    (hFits : t.length < wsize - 1) :
    ∃ a' j' hit, a.leftBorder (textScanner ps) d rest j = pure (a', j', hit) ∧
      if hit then Contains ps t
      else j ≤ j' ∧ j' ≤ j + rest ∧ Follows ps a' ∧ a'.w + j = a.w + j' ∧
        Completes d (j + rest - j') a' t ∧
        (j' = j + rest ∨ (longestPrefix ps a'.text).length ≤ j') := by
  induction rest generalizing a j with
  | zero => exact ⟨a, j, false, rfl, Nat.le_refl _, Nat.le_refl _, h, rfl, by simpa using hCopy,
      Or.inl rfl⟩
  | succ rest ih =>
    unfold Window.leftBorder
    simp only [textScanner, lift_some, pure_bind]
    split
    · obtain ⟨a₁, hit, b, hRun, hScanned, hNext, hHit⟩ := copyByte_scanned ps hCopy hFits
      rw [if_pos hCopy.2.2]
      unfold textScanner at hRun
      rw [hRun, pure_bind]
      cases hit with
      | true =>
        refine ⟨a₁, j + 1, true, rfl, ?_⟩
        exact (contains_of_state h.suffix (hHit.mp rfl)).mono (hScanned.text ▸ hNext.begins)
      | false =>
        have hMiss : ¬Contains ps a₁.text :=
          hScanned.text ▸ h.miss fun hEnd => Bool.false_ne_true (hHit.mpr hEnd)
        obtain ⟨a₂, j₂, hit, hRest, hEnd⟩ := ih (h.scanned hScanned hMiss) (j + 1) hNext
        refine ⟨a₂, j₂, hit, hRest, ?_⟩
        cases hit with
        | true => exact hEnd
        | false =>
          have hw : a₁.w = a.w + 1 := hScanned.w
          obtain ⟨hj, hLe, hFollows, hw₂, hCopy₂, hLive⟩ := hEnd
          rw [show j + (rest + 1) = j + 1 + rest by omega]
          exact ⟨by omega, hLe, hFollows, by omega, hCopy₂, hLive⟩
    · rename_i hDept
      rw [h.live] at hDept
      exact ⟨a, j, false, rfl, Nat.le_refl _, by omega, h, rfl, by
        rwa [show j + (rest + 1) - j = rest + 1 by omega], Or.inr (Nat.le_of_not_lt hDept)⟩

/-- Behind the left border of a copy its text has no pattern: one that begins before the copy would
be a longer prefix than the depth allows, and one that begins in it has been there before. -/
theorem Follows.settled (h : Follows ps a) {w len j : Nat} (hw : a.w = w + j) (hNear : d ≤ w)
    {u : List UInt8} (hStart : u.length = w) (hText : copyText d len u = some t)
    (hCopy : Completes d (len - j) a t)
    (hLive : j = len ∨ (longestPrefix ps a.text).length ≤ j) : ¬Contains ps t := by
  have hPrefix := hCopy.begins
  rw [List.prefix_iff_eq_take, Memory.text_length, hw] at hPrefix
  rcases hLive with rfl | hLive
  · have hWhole := hCopy.length
    rw [Nat.sub_self, Nat.add_zero, hw] at hWhole
    rw [← List.take_length (l := t), hWhole, ← hPrefix]
    exact h.unseen
  · rintro ⟨p, hp, hInfix⟩
    have hBorder : (longestPrefix ps (t.take (w + j))).length ≤ j := by rwa [← hPrefix]
    have hBefore : ∀ p ∈ ps, ¬p <:+: t.take (w + j) :=
      fun p hp hInfix => h.unseen ⟨p, hp, hPrefix ▸ hInfix⟩
    exact not_infix_of_copied hCopy.2.1 hNear
      (fun i hi hLt => copyText_getElem? hText (hStart.trans_le hi) hLt) hBorder hBefore
      p hp hInfix

theorem Memory.firstMatch_bounds (m : Memory) {len j : Nat} (hj : j < len) :
    j ≤ m.firstMatch d len j ∧ m.firstMatch d len j < len := by
  unfold Memory.firstMatch
  cases hFind : (List.range' j (len - j)).find? fun fk =>
      d ≤ m.w + fk ∧ m.st (m.w + fk - d) = 0 with
  | none => exact ⟨by simp; omega, by simp; omega⟩
  | some k =>
    have := List.mem_range'_1.mp (List.mem_of_find?_eq_some hFind)
    exact ⟨this.1, by simp; omega⟩

theorem Memory.lastShallow_bounds (m : Memory) {j k : Nat} (hj : j ≤ k) :
    j ≤ m.lastShallow d j k ∧ m.lastShallow d j k ≤ k := by
  unfold Memory.lastShallow
  cases hFind : (List.range' j (k + 1 - j)).reverse.find? fun fp =>
      d ≤ m.w + fp ∧ m.st (m.w + fp - d) = 2 with
  | none => exact ⟨Nat.le_refl _, hj⟩
  | some p =>
    have := List.mem_range'_1.mp (List.mem_reverse.mp (List.mem_of_find?_eq_some hFind))
    exact ⟨this.1, by simp; omega⟩

/-- The bytes before `p` are copied without a scan, the three before it are scanned from the
start. -/
theorem skip_scanned (hNone : ¬Contains ps t) {len j p : Nat} (hp : p < len)
    (hSkip : j + cDepth ≤ p) (hCopy : Completes d (len - j) a t) (hFits : t.length < wsize - 1) :
    ∃ a', a.skip (textScanner ps) d j p = pure (a', p, false) ∧ a'.state.length + 1 = cDepth ∧
      a'.state <:+ a'.text ∧ a'.w = a.w + (p - j) ∧ Completes d (len - p) a' t := by
  unfold Window.skip
  rw [if_pos hSkip]
  unfold cDepth at hSkip ⊢
  have hSplit : len - j = len - (p - 3) + (p - 3 - j) := by omega
  obtain ⟨a₁, hRun, hw, hCopy₁⟩ := Completes.skipRun (p - 3 - j) (hSplit ▸ hCopy)
  have hSplit₁ : len - (p - 3) = len - p + 3 := by omega
  have hCopy₂ : Completes d (len - p + 3) ({ a₁ with state := [] } : Window (List UInt8)) t :=
    hSplit₁ ▸ hCopy₁
  obtain ⟨a₂, v, hScan, hv, hScanned, hCopy₃⟩ :=
    scanRun_scanned hNone List.nil_suffix 3 (p - 3) hCopy₂ hFits
  have hState : a₂.state = v := hScanned.state
  have hw₂ : a₂.w = a₁.w + v.length := hScanned.w
  refine ⟨a₂, ?_, by rw [hState, hv], hScanned.suffix List.nil_suffix, by omega, hCopy₃⟩
  show (liftM (a.skipRun d (p - 3 - j)) >>= _ : Run _) = _
  rw [hRun, lift_some, pure_bind]
  rw [show p - 3 + 3 = p by omega] at hScan
  exact hScan

/-- Where the byte after the restart is not deep, the bytes scanned since the restart have the
longest prefix. -/
theorem follows_of_shallow {a' : Window (List UInt8)} {v T : List UInt8}
    (hSuffix : a.state <:+ a.text) (hRestart : a.state.length + 1 = cDepth)
    (hScanned : Scanned a a' v) (hv : v ≠ []) (hPrefix : a'.text <+: T)
    (hNone : ¬Contains ps a'.text) (hShallow : ¬Deep ps (T.take (a.w + 1))) : Follows ps a' := by
  refine ⟨hScanned.suffix hSuffix, ?_, hNone⟩
  obtain ⟨b, v, rfl⟩ := List.exists_cons_of_ne_nil hv
  have hParts : ∀ u : List UInt8, u ++ b :: v = u ++ [b] ++ v := fun u => by simp
  rw [hScanned.text, hParts] at hPrefix hNone
  rw [hScanned.text, hScanned.state, hParts, hParts]
  refine longestPrefix_append_congr (longestPrefix_of_suffix ?_ ?_) v
  · exact List.suffix_append_self_iff.mpr hSuffix
  · have hByte : T.take (a.w + 1) = a.text ++ [b] := by
      have hTake := List.prefix_iff_eq_take.mp ((List.prefix_append _ v).trans hPrefix)
      rw [List.length_append, Memory.text_length, List.length_singleton] at hTake
      exact hTake.symm
    have hNoEnd : ¬∃ p ∈ ps, p <:+ a.text ++ [b] := fun ⟨p, hp, hEnd⟩ =>
      hNone ⟨p, hp, hEnd.isInfix.trans (List.prefix_append _ v).isInfix⟩
    have hDepth : ¬cDepth ≤ (longestPrefix ps (a.text ++ [b])).length := fun hDeep =>
      hShallow (hByte.symm ▸ ⟨hNoEnd, hDeep⟩)
    rw [List.length_append, List.length_singleton]
    omega

variable {T : List UInt8}

theorem Follows.round (h : Follows ps a) (hPrefix : t <+: T) (hNone : ¬Contains ps t) {len j : Nat}
    (hj : j < len) (hCopy : Completes d (len - j) a t) (hFits : t.length < wsize - 1)
    (hTaken : ∀ x ∈ a.roundTaken d len j, ¬Deep ps (T.take (x + 1))) :
    ∃ a' j', a.round (textScanner ps) d len j = pure (a', j', false) ∧ j < j' ∧ j' ≤ len ∧
      Follows ps a' ∧ Completes d (len - j') a' t := by
  obtain ⟨hk, hkLen⟩ := a.firstMatch_bounds (d := d) hj
  simp only [Window.round]
  simp only [Window.roundTaken] at hTaken
  generalize a.firstMatch d len j = k at hk hkLen hTaken ⊢
  obtain ⟨hp, hpk⟩ := a.lastShallow_bounds (d := d) hk
  generalize a.lastShallow d j k = p at hp hpk hTaken ⊢
  by_cases hSkip : j + cDepth ≤ p
  · obtain ⟨a₁, hRun₁, hRestart, hSuffix, hw, hCopy₁⟩ :=
      skip_scanned hNone (by omega) hSkip hCopy hFits
    have hSplit : len - p = len - (k + 1) + (k + 1 - p) := by omega
    obtain ⟨a₂, v, hRun₂, hv, hScanned, hCopy₂⟩ :=
      scanRun_scanned hNone hSuffix (k + 1 - p) p (hSplit ▸ hCopy₁) hFits
    refine ⟨a₂, k + 1, ?_, by omega, by omega, ?_, hCopy₂⟩
    · simp only [hRun₁, pure_bind, hRun₂]
      rfl
    · refine follows_of_shallow hSuffix hRestart hScanned (List.ne_nil_of_length_pos (by omega))
        (hCopy₂.begins.trans hPrefix) (fun hEnd => hNone (hEnd.mono hCopy₂.begins)) ?_
      rw [hw]
      exact hTaken _ (by simp [hSkip])
  · have hSplit : len - j = len - (k + 1) + (k + 1 - j) := by omega
    obtain ⟨a₂, v, hRun₂, -, hScanned, hCopy₂⟩ :=
      scanRun_scanned hNone h.suffix (k + 1 - j) j (hSplit ▸ hCopy) hFits
    refine ⟨a₂, k + 1, ?_, by omega, by omega, ?_, hCopy₂⟩
    · simp only [Window.skip, if_neg hSkip, pure_bind, hRun₂]
      rfl
    · exact h.scanned hScanned fun hEnd => hNone (hEnd.mono hCopy₂.begins)

theorem Follows.rounds (h : Follows ps a) (hPrefix : t <+: T) (hNone : ¬Contains ps t)
    {len j fuel : Nat} (hj : j ≤ len) (hFuel : len ≤ j + fuel)
    (hCopy : Completes d (len - j) a t) (hFits : t.length < wsize - 1)
    (hTaken : ∀ x ∈ a.roundsTaken (textScanner ps) d len fuel j, ¬Deep ps (T.take (x + 1))) :
    ∃ a', a.rounds (textScanner ps) d len fuel j = pure (a', false) ∧ Follows ps a' ∧
      a'.text = t := by
  induction fuel generalizing a j with
  | zero =>
    obtain rfl : j = len := by omega
    rw [Nat.sub_self] at hCopy
    unfold Window.rounds
    rw [if_neg (Nat.lt_irrefl _)]
    exact ⟨a, rfl, h, Option.some.inj hCopy.1⟩
  | succ fuel ih =>
    unfold Window.rounds
    unfold Window.roundsTaken at hTaken
    by_cases hLt : j < len
    · rw [if_pos hLt] at hTaken ⊢
      obtain ⟨hFirst, hOthers⟩ := List.forall_mem_append.mp hTaken
      obtain ⟨a₁, j₁, hRun₁, hj₁, hLen₁, hFollows, hCopy₁⟩ :=
        h.round hPrefix hNone hLt hCopy hFits hFirst
      simp only [hRun₁, ExceptT.run_pure] at hOthers
      obtain ⟨a₂, hRun₂, hEnd⟩ := ih hFollows hLen₁ (by omega) hCopy₁ hOthers
      refine ⟨a₂, ?_, hEnd⟩
      rw [hRun₁, pure_bind]
      exact hRun₂
    · obtain rfl : j = len := by omega
      rw [Nat.sub_self] at hCopy
      rw [if_neg hLt]
      exact ⟨a, rfl, h, Option.some.inj hCopy.1⟩

theorem Follows.literal (h : Follows ps a) (l : UInt8) (hFits : a.w + 1 < wsize - 1) :
    ∃ a' hit, a.literal (textScanner ps) l = pure (a', hit) ∧
      if hit then Contains ps (a.text ++ [l]) else Follows ps a' ∧ a'.text = a.text ++ [l] := by
  unfold Window.literal
  simp only [textScanner, lift_some, pure_bind]
  by_cases hHit : ∃ p ∈ ps, p <:+ a.state ++ [l]
  · exact ⟨⟨a.full l, a.state ++ [l]⟩, true, by simp only [if_pos hHit, if_true],
      contains_of_state h.suffix hHit⟩
  · generalize hStatus : (if cDepth ≤ (longestPrefix ps (a.state ++ [l])).length then 1 else 2) =
      status
    have hNe : status ≠ 0 := by
      rw [← hStatus]
      split <;> simp
    have hScanned := put_scanned a l status
    exact ⟨a.put l (a.state ++ [l]) status, false,
      by simp only [if_neg hHit, if_neg hNe, if_neg (show ¬wsize - 1 ≤ a.w by omega)],
      h.scanned hScanned (hScanned.text ▸ h.miss hHit), hScanned.text⟩

theorem Follows.token (h : Follows ps a) (l : UInt8) (dbuf : UInt16) (hPrefix : t <+: T)
    (hToken : expandToken l dbuf a.text = some t) (hFits : t.length < wsize - 1)
    (hTaken : ∀ x ∈ a.tokenTaken (textScanner ps) l dbuf, ¬Deep ps (T.take (x + 1))) :
    ∃ a' hit, a.token (textScanner ps) l dbuf = pure (a', hit) ∧
      if hit then Contains ps t else Follows ps a' ∧ a'.text = t := by
  unfold Window.token
  unfold Window.tokenTaken at hTaken
  unfold expandToken at hToken
  by_cases hLiteral : dbuf = 0
  · rw [if_pos hLiteral] at hToken ⊢
    obtain rfl := Option.some.inj hToken
    rw [List.length_append, Memory.text_length, List.length_singleton] at hFits
    exact h.literal l hFits
  · rw [if_neg hLiteral] at hToken hTaken ⊢
    have hd : 0 < dbuf.toNat := Nat.pos_of_ne_zero fun h0 => hLiteral (UInt16.toNat_inj.mp h0)
    have hLe : dbuf.toNat ≤ a.w := by
      rw [copyText] at hToken
      split at hToken
      · rename_i hLe
        simpa using hLe
      · cases hToken
    obtain ⟨a₁, j, hit, hRun, hNext⟩ :=
      h.leftBorder (l.toNat + 3) 0 ⟨hToken, hd, hLe⟩ hFits
    unfold Window.copy
    rw [hRun] at hTaken ⊢
    simp only [pure_bind]
    cases hit with
    | true => exact ⟨a₁, true, rfl, hNext⟩
    | false =>
      obtain ⟨-, hj, hFollows, hw, hCopy, hLive⟩ := hNext
      rw [Nat.zero_add] at hj hCopy hLive
      have hNone := hFollows.settled hw hLe a.text_length hToken hCopy hLive
      obtain ⟨a₂, hRun₂, hEnd⟩ :=
        hFollows.rounds hPrefix hNone hj (by omega) hCopy hFits hTaken
      exact ⟨a₂, false, hRun₂, hEnd⟩

theorem Follows.tokens (h : Follows ps a) {l : Nat → UInt8} {dbuf : Nat → UInt16} {rest i : Nat}
    (hExpand : expand l dbuf rest i a.text = some t) (hPrefix : t <+: T)
    (hFits : t.length < wsize - 1)
    (hTaken : ∀ x ∈ a.tokensTaken (textScanner ps) l dbuf rest i, ¬Deep ps (T.take (x + 1))) :
    ∃ a' hit, a.tokens (textScanner ps) l dbuf rest i = pure (a', hit) ∧
      if hit.isSome then Contains ps t else Follows ps a' ∧ a'.text = t := by
  induction rest generalizing a i with
  | zero => exact ⟨a, none, rfl, h, Option.some.inj hExpand⟩
  | succ rest ih =>
    obtain ⟨t₁, hToken, hRest⟩ := Option.bind_eq_some_iff.mp hExpand
    have hStep := expand_prefix hRest
    unfold Window.tokensTaken at hTaken
    obtain ⟨hFirst, hOthers⟩ := List.forall_mem_append.mp hTaken
    obtain ⟨a₁, hit₁, hRun₁, hNext⟩ := h.token (l i) (dbuf i) (hStep.trans hPrefix) hToken
      (Nat.lt_of_le_of_lt hStep.length_le hFits) hFirst
    unfold Window.tokens
    rw [hRun₁] at hOthers ⊢
    simp only [pure_bind]
    cases hit₁ with
    | true => exact ⟨a₁, some i, rfl, Contains.mono hNext hStep⟩
    | false =>
      obtain ⟨hFollows, rfl⟩ := hNext
      exact ih hFollows hRest hOthers

end Loops

/-! ### The search -/

theorem start_follows {ps : List Pattern} (hNonempty : ∀ p ∈ ps, p ≠ []) (m : Memory) :
    Follows ps ⟨{ m with w := 0 }, []⟩ := by
  refine ⟨List.nil_suffix, rfl, ?_⟩
  rintro ⟨p, hp, hInfix⟩
  exact hNonempty p hp (List.infix_nil.mp hInfix)

/-- A search that takes no deep byte for a shallow one finds the patterns that the text contains.
The text may go on behind the tokens. -/
theorem search_agrees {ps : List Pattern} (hNonempty : ∀ p ∈ ps, p ≠ []) {l : Nat → UInt8}
    {dbuf : Nat → UInt16} {lastLit : Nat} {t : List UInt8}
    (hExpand : expansion l dbuf lastLit = some t) (hFits : t.length < wsize - 1) {T : List UInt8}
    (hPrefix : t <+: T) {m : Memory}
    (hShallow : ∀ x ∈ takenShallow ps l dbuf lastLit m, ¬Deep ps (T.take (x + 1))) :
    ∃ o, search (textScanner ps) l dbuf 0 lastLit m = some o ∧
      (o.ret = 1 ↔ Contains ps t) := by
  obtain ⟨a, hit, hRun, hNext⟩ :=
    (start_follows hNonempty m).tokens hExpand hPrefix hFits hShallow
  unfold search
  rw [Nat.sub_zero, show (textScanner ps).root = [] from rfl, hRun]
  cases hit with
  | some i => exact ⟨⟨1, some i, a.toMemory⟩, rfl, fun _ => hNext, fun _ => rfl⟩
  | none =>
    obtain ⟨hFollows, rfl⟩ := hNext
    exact ⟨⟨0, none, a.toMemory⟩, rfl, fun h => by simp at h, fun h =>
      absurd h hFollows.unseen⟩

/-- `acch` agrees with a search of the decompressed text. -/
def Agrees (acsm : AcsmxStruct) (ps : List Pattern) (l : Nat → UInt8) (dbuf : Nat → UInt16)
    (lastLit : Nat) (m : Memory) (t : List UInt8) : Prop :=
  ∃ o, acch acsm l dbuf 0 lastLit m = some o ∧ (o.ret = 1 ↔ Contains ps t)

/-- Patterns of at most `CDepth` bytes make no byte deep. -/
theorem not_deep_of_short {ps : List Pattern} (hShort : ∀ p ∈ ps, p.length ≤ cDepth)
    (t : List UInt8) : ¬Deep ps t := by
  rintro ⟨hNone, hDepth⟩
  have hSuffix : longestPrefix ps t <:+ t := longestSuffix_suffix _ t
  rcases longestSuffix_mem PrefixOfSome.nil t with hNil | ⟨p, hp, hPrefix⟩
  · rw [longestPrefix, hNil] at hDepth
    exact absurd hDepth (by decide)
  · have hWhole := hPrefix.eq_of_length_le ((hShort p hp).trans hDepth)
    exact hNone ⟨p, hp, hWhole ▸ hSuffix⟩

/-- With patterns of at most `CDepth` bytes `acch` agrees with a search of the text. -/
theorem agrees_of_short {acsm acsm' : AcsmxStruct} (hCompile : acsmcompile acsm = some acsm')
    (hNonempty : ∀ p ∈ acsm.acsmPatterns, p ≠ [])
    (hShort : ∀ p ∈ acsm.acsmPatterns, p.length ≤ cDepth) {l : Nat → UInt8}
    {dbuf : Nat → UInt16} {lastLit : Nat} {t : List UInt8}
    (hExpand : expansion l dbuf lastLit = some t) (hFits : t.length < wsize - 1) (m : Memory) :
    Agrees acsm' acsm.acsmPatterns l dbuf lastLit m t := by
  obtain ⟨o, hSearch, hRet⟩ := search_agrees (m := m) hNonempty hExpand hFits List.prefix_rfl
    fun _ _ => not_deep_of_short hShort _
  exact ⟨o, (acch_eq hCompile hNonempty l dbuf 0 lastLit m).trans hSearch, hRet⟩

/-- The arrays at the start of the program. -/
def zeroMemory : Memory := ⟨fun _ => 0, fun _ => 0, 0⟩

end Shutter.Acch
