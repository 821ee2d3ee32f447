import Shutter.Acch.Correct

/-! `acch` on arrays of `WSIZE` elements.  The loops that scan a byte test `w` in time, but the
loops over `fk` and `fp` read ahead of `w` and the loop that skips bytes moves `w` without a test.
So the index of the last status that a round reads, and the end of the bytes that it skips, decide
whether `acch` stays inside the arrays. -/

namespace Shutter.Acch

open Shutter.Acsm Shutter.Library

variable {σ : Type}

/-! ### The functions -/

/-- An access to `win` or `st`. -/
def within (i : Nat) : Option Unit := if i < wsize then some () else none

/-- `Window.copyByte` on the arrays. -/
def Window.copyByteWithin (S : Scanner σ) (d : Nat) (a : Window σ) : Run (Window σ × Bool) := do
  within (a.w - d)
  within a.w
  a.copyByte S d

/-- `Window.leftBorder` on the arrays. -/
def Window.leftBorderWithin (S : Scanner σ) (d : Nat) :
    Nat → Nat → Window σ → Run (Window σ × Nat × Bool)
  | 0, j, a => pure (a, j, false)
  | rest + 1, j, a => do
    let dept ← S.dept a.state
    if j < dept then
      if d ≤ a.w then do
        let (a, hit) ← a.copyByteWithin S d
        if hit then pure (a, j + 1, true) else leftBorderWithin S d rest (j + 1) a
      else leftBorderWithin S d rest (j + 1) a
    else pure (a, j, false)

/-- `Window.scanRun` on the arrays. -/
def Window.scanRunWithin (S : Scanner σ) (d : Nat) :
    Nat → Nat → Window σ → Run (Window σ × Nat × Bool)
  | 0, j, a => pure (a, j, false)
  | rest + 1, j, a =>
    if d ≤ a.w then do
      let (a, hit) ← a.copyByteWithin S d
      if hit then pure (a, j, true) else scanRunWithin S d rest (j + 1) a
    else scanRunWithin S d rest (j + 1) a

/-- `Window.skipRun` on the arrays. -/
def Window.skipRunWithin (d : Nat) : Nat → Window σ → Option (Window σ)
  | 0, a => some a
  | rest + 1, a =>
    if d ≤ a.w then do
      within (a.w - d)
      within a.w
      skipRunWithin d rest
        { a with win := Function.update a.win a.w (a.win (a.w - d)), w := a.w + 1 }
    else none

/-- The loop over `fk` on the array, with `rest` indices left. -/
def Memory.firstMatchWithin (m : Memory) (d len : Nat) : Nat → Nat → Option Nat
  | 0, _ => some (len - 1)
  | rest + 1, fk =>
    if d ≤ m.w + fk then do
      within (m.w + fk - d)
      if m.st (m.w + fk - d) = 0 then some fk else firstMatchWithin m d len rest (fk + 1)
    else firstMatchWithin m d len rest (fk + 1)

/-- The loop over `fp` on the array, with `rest` indices left from `j` on. -/
def Memory.lastShallowWithin (m : Memory) (d j : Nat) : Nat → Option Nat
  | 0 => some j
  | rest + 1 =>
    let fp := j + rest
    if d ≤ m.w + fp then do
      within (m.w + fp - d)
      if m.st (m.w + fp - d) = 2 then some fp else lastShallowWithin m d j rest
    else lastShallowWithin m d j rest

/-- `Window.skip` on the arrays. -/
def Window.skipWithin (S : Scanner σ) (d j p : Nat) (a : Window σ) :
    Run (Window σ × Nat × Bool) :=
  if j + cDepth ≤ p then do
    let a ← a.skipRunWithin d (p - (cDepth - 1) - j)
    { a with state := S.root }.scanRunWithin S d (cDepth - 1) (p - (cDepth - 1))
  else pure (a, j, false)

/-- `Window.round` on the arrays. -/
def Window.roundWithin (S : Scanner σ) (d len j : Nat) (a : Window σ) :
    Run (Window σ × Nat × Bool) := do
  let k ← a.firstMatchWithin d len (len - j) j
  let p ← a.lastShallowWithin d j (k + 1 - j)
  let (a, j, tag) ← a.skipWithin S d j p
  let (a, _, hit) ← a.scanRunWithin S d (k + 1 - j) j
  pure (a, k + 1, tag || hit)

/-- `Window.rounds` on the arrays. -/
def Window.roundsWithin (S : Scanner σ) (d len : Nat) :
    Nat → Nat → Window σ → Run (Window σ × Bool)
  | 0, j, a => if j < len then (none : Option _) else pure (a, false)
  | fuel + 1, j, a =>
    if j < len then do
      let (a, j, tag) ← a.roundWithin S d len j
      if tag then pure (a, true) else roundsWithin S d len fuel j a
    else pure (a, false)

/-- `Window.copy` on the arrays. -/
def Window.copyWithin (S : Scanner σ) (d len : Nat) (a : Window σ) : Run (Window σ × Bool) := do
  let (a, j, tag) ← a.leftBorderWithin S d len 0
  if tag then pure (a, true) else a.roundsWithin S d len len j

/-- `Window.literal` on the arrays. -/
def Window.literalWithin (S : Scanner σ) (b : UInt8) (a : Window σ) :
    Run (Window σ × Bool) := do
  within a.w
  a.literal S b

/-- `Window.token` on the arrays. -/
def Window.tokenWithin (S : Scanner σ) (l : UInt8) (dbuf : UInt16) (a : Window σ) :
    Run (Window σ × Bool) :=
  if dbuf = 0 then a.literalWithin S l else a.copyWithin S dbuf.toNat (l.toNat + 3)

/-- `Window.tokens` on the arrays. -/
def Window.tokensWithin (S : Scanner σ) (l : Nat → UInt8) (dbuf : Nat → UInt16) :
    Nat → Nat → Window σ → Run (Window σ × Option Nat)
  | 0, _, a => pure (a, none)
  | rest + 1, i, a => do
    let (a, tag) ← a.tokenWithin S (l i) (dbuf i)
    if tag then pure (a, some i) else tokensWithin S l dbuf rest (i + 1) a

/-- `acch` on arrays of `WSIZE` elements.  It fails where an index leaves them. -/
def acchWithin (acsm : AcsmxStruct) (l : Nat → UInt8) (dbuf : Nat → UInt16)
    (offset lastLit : Nat) (m : Memory) : Option Outcome := do
  let S := scanner acsm
  match ← (Window.tokensWithin S l dbuf (lastLit - offset) offset
    ⟨{ m with w := 0 }, S.root⟩).run with
  | .error m => some ⟨0, none, m⟩
  | .ok (a, none) => some ⟨0, none, a.toMemory⟩
  | .ok (a, some i) => some ⟨1, some i, a.toMemory⟩

/-! ### The indices ahead of the text -/

/-- The last status that a round reads, and the end of the bytes that it skips. -/
def Window.roundReach (d len j : Nat) (a : Window σ) : List Nat :=
  let k := a.firstMatch d len j
  let p := a.lastShallow d j k
  (a.w + k - d) :: if j + cDepth ≤ p then [a.w + (p - (cDepth - 1) - j)] else []

/-- What the rounds of a copy token reach. -/
def Window.roundsReach (S : Scanner σ) (d len : Nat) : Nat → Nat → Window σ → List Nat
  | 0, _, _ => []
  | fuel + 1, j, a =>
    if j < len then
      a.roundReach d len j ++
        match (a.round S d len j).run with
        | some (.ok (a, j, false)) => roundsReach S d len fuel j a
        | _ => []
    else []

/-- What a token reaches. -/
def Window.tokenReach (S : Scanner σ) (l : UInt8) (dbuf : UInt16) (a : Window σ) : List Nat :=
  if dbuf = 0 then []
  else match (a.leftBorder S dbuf.toNat (l.toNat + 3) 0).run with
    | some (.ok (a, j, false)) => a.roundsReach S dbuf.toNat (l.toNat + 3) (l.toNat + 3) j
    | _ => []

/-- What the loop over the tokens reaches. -/
def Window.tokensReach (S : Scanner σ) (l : Nat → UInt8) (dbuf : Nat → UInt16) :
    Nat → Nat → Window σ → List Nat
  | 0, _, _ => []
  | rest + 1, i, a =>
    a.tokenReach S (l i) (dbuf i) ++
      match (a.token S (l i) (dbuf i)).run with
      | some (.ok (a, false)) => tokensReach S l dbuf rest (i + 1) a
      | _ => []

/-- The indices up to which the rounds of `acch` read and skip ahead. -/
def reach (acsm : AcsmxStruct) (l : Nat → UInt8) (dbuf : Nat → UInt16) (offset lastLit : Nat)
    (m : Memory) : List Nat :=
  Window.tokensReach (scanner acsm) l dbuf (lastLit - offset) offset
    ⟨{ m with w := 0 }, (scanner acsm).root⟩

section Simulation

variable {τ : Type} {S : Scanner σ} {T : Scanner τ} {f : σ → τ}

theorem Simulates.roundsReach (h : Simulates S T f) (d len fuel j : Nat) (a : Window σ) :
    (a.map f).roundsReach T d len fuel j = a.roundsReach S d len fuel j := by
  induction fuel generalizing j a with
  | zero => rfl
  | succ fuel ih =>
    unfold Window.roundsReach
    rw [h.round, ExceptT.run_map]
    cases (a.round S d len j).run with
    | none => rfl
    | some r =>
      rcases r with m | ⟨a₁, j₁, hit⟩
      · rfl
      · cases hit with
        | true => rfl
        | false =>
          have hRest := ih j₁ a₁
          simp only [Except.map, Option.map_eq_map, Option.map_some, hRest]
          rfl

theorem Simulates.tokenReach (h : Simulates S T f) (l : UInt8) (dbuf : UInt16) (a : Window σ) :
    (a.map f).tokenReach T l dbuf = a.tokenReach S l dbuf := by
  unfold Window.tokenReach
  rw [h.leftBorder, ExceptT.run_map]
  cases (a.leftBorder S dbuf.toNat (l.toNat + 3) 0).run with
  | none => rfl
  | some r =>
    rcases r with m | ⟨a₁, j, hit⟩
    · rfl
    · cases hit with
      | true => rfl
      | false =>
        simp only [Except.map, Option.map_eq_map, Option.map_some, h.roundsReach]

theorem Simulates.tokensReach (h : Simulates S T f) (l : Nat → UInt8) (dbuf : Nat → UInt16)
    (rest i : Nat) (a : Window σ) :
    (a.map f).tokensReach T l dbuf rest i = a.tokensReach S l dbuf rest i := by
  induction rest generalizing i a with
  | zero => rfl
  | succ rest ih =>
    unfold Window.tokensReach
    rw [h.tokenReach, h.token, ExceptT.run_map]
    cases (a.token S (l i) (dbuf i)).run with
    | none => rfl
    | some r =>
      rcases r with m | ⟨a₁, hit⟩
      · rfl
      · cases hit with
        | true => rfl
        | false => simp only [Except.map, Option.map_eq_map, Option.map_some, ih]

end Simulation

/-- The indices over a compiled structure are those over its patterns. -/
theorem reach_eq {acsm acsm' : AcsmxStruct} (hCompile : acsmcompile acsm = some acsm')
    (hNonempty : ∀ p ∈ acsm.acsmPatterns, p ≠ []) (l : Nat → UInt8) (dbuf : Nat → UInt16)
    (offset lastLit : Nat) (m : Memory) :
    reach acsm' l dbuf offset lastLit m =
      Window.tokensReach (textScanner acsm.acsmPatterns) l dbuf (lastLit - offset) offset
        ⟨{ m with w := 0 }, []⟩ := by
  obtain ⟨acsm'', b, word, hCompile', -, hHolds, hCompiled⟩ := acsmcompile_holds acsm
  obtain rfl := Option.some.inj (hCompile.symm.trans hCompile')
  have hSimulates := hHolds.simulates hCompiled hNonempty
  exact hSimulates.tokensReach l dbuf (lastLit - offset) offset ⟨{ m with w := 0 }, []⟩

/-! ### Runs with a guard -/

section Guarded

variable {α β : Type} {x y : Run α} {f g : α → Run β} {p p' : Prop} {P : α → Prop}
  {Q : β → Prop}

/-- The results of the run have the property. -/
def Gives (x : Run α) (P : α → Prop) : Prop := ∀ r, x.run = some (.ok r) → P r

theorem Gives.pure {v : α} (h : P v) : Gives (pure v : Run α) P := by
  rintro r ⟨⟩
  exact h

theorem Gives.throw {m : Memory} : Gives (throw m : Run α) P := by
  rintro r ⟨⟩

theorem Gives.lift {o : Option α} (h : ∀ v, o = some v → P v) : Gives
    (liftM o : Run α) P := by
  intro r hr
  cases o with
  | none => cases hr
  | some v =>
    obtain rfl := Except.ok.inj (Option.some.inj hr)
    exact h v rfl

theorem Gives.bind (h : Gives x P) (hf : ∀ v, P v → Gives (f v) Q) :
    Gives (x >>= f) Q := by
  intro r hr
  rw [ExceptT.run_bind] at hr
  obtain ⟨e, hx, hRest⟩ := Option.bind_eq_some_iff.mp hr
  cases e with
  | error m => cases hRest
  | ok v => exact hf v (h v hx) r hRest

theorem bind_congr_run (h : ∀ r, x.run = some (.ok r) → f r = g r) : x >>= f = x >>= g := by
  apply ExceptT.ext
  rw [ExceptT.run_bind, ExceptT.run_bind]
  cases hx : x.run with
  | none => rfl
  | some r =>
    cases r with
    | error m => rfl
    | ok r =>
      have hRest := congrArg ExceptT.run (h r hx)
      exact hRest

theorem run_bind_none (h : x.run = none) : (x >>= f).run = none := by
  rw [ExceptT.run_bind, h]
  rfl

theorem run_bind_of_ok {r : α} (hx : x.run = some (.ok r)) (h : (f r).run = none) :
    (x >>= f).run = none := by
  rw [ExceptT.run_bind, hx]
  exact h

/-- The first run is the second where the guard holds, with results of `P`, and it fails
elsewhere. -/
structure Guarded (p : Prop) (P : α → Prop) (x y : Run α) : Prop where
  same : p → x = y
  gives : p → Gives y P
  fails : ¬p → x.run = none

theorem Guarded.of_eq (hp : p) (h : x = y) (hGives : Gives y P) : Guarded p P x y :=
  ⟨fun _ => h, fun _ => hGives, fun hNot => absurd hp hNot⟩

theorem Guarded.congr (h : Guarded p P x y) (hIff : p ↔ p') : Guarded p' P x y :=
  ⟨fun hp => h.same (hIff.mpr hp), fun hp => h.gives (hIff.mpr hp), fun hp =>
    h.fails (mt hIff.mp hp)⟩

/-- The guards of a run and of what follows it, for each of its results. -/
theorem Guarded.bind {q : α → Prop} (h : Guarded p P x y)
    (hfg : ∀ r, P r → Guarded (q r) Q (f r) (g r)) :
    Guarded (p ∧ ∀ r, y.run = some (.ok r) → q r) Q (x >>= f) (y >>= g) where
  same := by
    rintro ⟨hp, hq⟩
    rw [h.same hp]
    exact bind_congr_run fun r hr => (hfg r (h.gives hp r hr)).same (hq r hr)
  gives := by
    rintro ⟨hp, hq⟩ v hv
    rw [ExceptT.run_bind] at hv
    obtain ⟨e, hy, hRest⟩ := Option.bind_eq_some_iff.mp hv
    cases e with
    | error m => cases hRest
    | ok r => exact (hfg r (h.gives hp r hy)).gives (hq r hy) v hRest
  fails := by
    intro hNot
    by_cases hp : p
    · obtain ⟨r, hr, hq⟩ : ∃ r, y.run = some (.ok r) ∧ ¬q r := by
        by_contra hAll
        exact hNot ⟨hp, fun r hr => by_contra fun hq => hAll ⟨r, hr, hq⟩⟩
      rw [h.same hp]
      exact run_bind_of_ok hr ((hfg r (h.gives hp r hr)).fails hq)
    · exact run_bind_none (h.fails hp)

end Guarded

/-! ### The loops -/

section Loops

variable (S : Scanner σ) {a : Window σ} {d : Nat}

theorem within_of_lt {i : Nat} (h : i < wsize) : within i = some () := if_pos h

theorem within_eq_none {i : Nat} (h : wsize ≤ i) : within i = none := if_neg (Nat.not_lt.mpr h)

theorem copyByte_bounded (ha : a.w < wsize) : Gives (a.copyByte S d) fun r => r.1.w < wsize := by
  refine Gives.bind (P := fun _ => True) (Gives.lift fun _ _ => trivial) ?_
  rintro ⟨state, status⟩ -
  by_cases hFull : wsize - 1 ≤ a.w
  · simp only [if_pos hFull]
    exact Gives.throw
  · simp only [if_neg hFull]
    exact Gives.pure (show a.w + 1 < wsize by omega)

theorem copyByteWithin_eq (ha : a.w < wsize) : a.copyByteWithin S d = a.copyByte S d := by
  rw [Window.copyByteWithin, within_of_lt (show a.w - d < wsize by omega), within_of_lt ha]
  rfl

theorem copyByteWithin_none (ha : wsize ≤ a.w) : (a.copyByteWithin S d).run = none := by
  unfold Window.copyByteWithin within
  split
  · rw [if_neg (Nat.not_lt.mpr ha)]
    rfl
  · rfl

theorem leftBorder_bounded (rest j : Nat) (ha : a.w < wsize) :
    Gives (a.leftBorder S d rest j) fun r => r.1.w < wsize := by
  induction rest generalizing a j with
  | zero => exact Gives.pure ha
  | succ rest ih =>
    refine Gives.bind (P := fun _ => True) (Gives.lift fun _ _ => trivial) ?_
    rintro dept -
    split
    · split
      · refine (copyByte_bounded S ha).bind ?_
        rintro ⟨a', hit⟩ ha'
        cases hit with
        | true => exact Gives.pure ha'
        | false => exact ih (j + 1) ha'
      · exact ih (j + 1) ha
    · exact Gives.pure ha

theorem leftBorderWithin_eq (rest j : Nat) (ha : a.w < wsize) :
    a.leftBorderWithin S d rest j = a.leftBorder S d rest j := by
  induction rest generalizing a j with
  | zero => rfl
  | succ rest ih =>
    unfold Window.leftBorderWithin Window.leftBorder
    apply bind_congr
    intro dept
    rw [copyByteWithin_eq S ha, ih (j + 1) ha]
    have hRest : (do
        let (a, hit) ← a.copyByte S d
        if hit then pure (a, j + 1, true) else a.leftBorderWithin S d rest (j + 1)) =
        (do
        let (a, hit) ← a.copyByte S d
        if hit then pure (a, j + 1, true) else a.leftBorder S d rest (j + 1)) := by
      apply bind_congr_run
      rintro ⟨a', hit⟩ hRun
      cases hit with
      | true => rfl
      | false => exact ih (j + 1) (copyByte_bounded S ha _ hRun)
    rw [hRest]

theorem scanRun_bounded (rest j : Nat) (ha : a.w < wsize) :
    Gives (a.scanRun S d rest j) fun r => r.1.w < wsize := by
  induction rest generalizing a j with
  | zero => exact Gives.pure ha
  | succ rest ih =>
    unfold Window.scanRun
    split
    · refine (copyByte_bounded S ha).bind ?_
      rintro ⟨a', hit⟩ ha'
      cases hit with
      | true => exact Gives.pure ha'
      | false => exact ih (j + 1) ha'
    · exact ih (j + 1) ha

theorem scanRunWithin_eq (rest j : Nat) (ha : a.w < wsize) :
    a.scanRunWithin S d rest j = a.scanRun S d rest j := by
  induction rest generalizing a j with
  | zero => rfl
  | succ rest ih =>
    unfold Window.scanRunWithin Window.scanRun
    split
    · rw [copyByteWithin_eq S ha]
      apply bind_congr_run
      rintro ⟨a', hit⟩ hRun
      cases hit with
      | true => rfl
      | false => exact ih (j + 1) (copyByte_bounded S ha _ hRun)
    · exact ih (j + 1) ha

theorem scanRunWithin_none {rest : Nat} (j : Nat) (hPos : 0 < rest) (hd : d ≤ a.w)
    (ha : wsize ≤ a.w) : (a.scanRunWithin S d rest j).run = none := by
  obtain ⟨rest, rfl⟩ := Nat.exists_eq_succ_of_ne_zero hPos.ne'
  unfold Window.scanRunWithin
  rw [if_pos hd]
  exact run_bind_none (copyByteWithin_none S ha)

/-- The bytes skipped end at `WSIZE` at the latest. -/
theorem skipRunWithin_eq (rest : Nat) :
    (a.w + rest ≤ wsize → a.skipRunWithin d rest = a.skipRun d rest) ∧
    (wsize < a.w + rest → 0 < rest → a.skipRunWithin d rest = none) := by
  induction rest generalizing a with
  | zero => exact ⟨fun _ => rfl, fun _ hPos => absurd hPos (Nat.lt_irrefl 0)⟩
  | succ rest ih =>
    unfold Window.skipRunWithin Window.skipRun
    by_cases hd : d ≤ a.w
    · rw [if_pos hd, if_pos hd]
      let a₁ : Window σ :=
        { a with win := Function.update a.win a.w (a.win (a.w - d)), w := a.w + 1 }
      obtain ⟨hFits, hEnds⟩ := ih (a := a₁)
      have hw : a₁.w = a.w + 1 := rfl
      constructor
      · intro hLe
        rw [within_of_lt (show a.w - d < wsize by omega), within_of_lt (show a.w < wsize by omega)]
        exact hFits (by omega)
      · intro hLt _
        by_cases hFull : a.w < wsize
        · rw [within_of_lt (show a.w - d < wsize by omega), within_of_lt hFull]
          exact hEnds (by omega) (by omega)
        · rw [within_eq_none (show wsize ≤ a.w by omega)]
          cases within (a.w - d) <;> rfl
    · rw [if_neg hd, if_neg hd]
      exact ⟨fun _ => rfl, fun _ _ => rfl⟩

theorem skipRun_w {rest : Nat} {a' : Window σ} (h : a.skipRun d rest = some a') :
    a'.w = a.w + rest ∧ (0 < rest → d ≤ a.w) := by
  induction rest generalizing a with
  | zero =>
    obtain rfl := Option.some.inj h
    exact ⟨rfl, fun hPos => absurd hPos (Nat.lt_irrefl 0)⟩
  | succ rest ih =>
    unfold Window.skipRun at h
    split at h
    next hd =>
      obtain ⟨hw, -⟩ := ih h
      exact ⟨by rw [hw]; show a.w + 1 + rest = _; omega, fun _ => hd⟩
    next => cases h

theorem firstMatch_step (m : Memory) {len j : Nat} (hj : j < len) :
    m.firstMatch d len j =
      if d ≤ m.w + j ∧ m.st (m.w + j - d) = 0 then j else m.firstMatch d len (j + 1) := by
  unfold Memory.firstMatch
  rw [show len - j = len - (j + 1) + 1 by omega, List.range'_succ, List.find?_cons]
  by_cases hFound : d ≤ m.w + j ∧ m.st (m.w + j - d) = 0
  · rw [if_pos hFound, decide_eq_true hFound]
    rfl
  · rw [if_neg hFound, decide_eq_false hFound]

/-- The loop over `fk` reads up to the index that it finds. -/
theorem firstMatchWithin_eq (m : Memory) {len j rest : Nat} (hLen : j + rest = len)
    (hLast : rest = 0 → m.w + (len - 1) - d < wsize) : m.firstMatchWithin d len rest j =
      if m.w + m.firstMatch d len j - d < wsize then some (m.firstMatch d len j) else none := by
  induction rest generalizing j with
  | zero =>
    have hNone : m.firstMatch d len j = len - 1 := by
      rw [Memory.firstMatch, show len - j = 0 by omega]
      rfl
    rw [hNone, if_pos (hLast rfl)]
    rfl
  | succ rest ih =>
    have hj : j < len := by omega
    have hBelow := (m.firstMatch_bounds (d := d) hj).1
    have hStep := firstMatch_step (d := d) m hj
    unfold Memory.firstMatchWithin
    by_cases hd : d ≤ m.w + j
    · rw [if_pos hd]
      by_cases hIn : m.w + j - d < wsize
      · rw [within_of_lt hIn, Option.bind_eq_bind, Option.bind_some]
        by_cases hFound : m.st (m.w + j - d) = 0
        · rw [if_pos ⟨hd, hFound⟩] at hStep
          rw [if_pos hFound, hStep, if_pos hIn]
        · rw [if_neg fun h => hFound h.2] at hStep
          rw [if_neg hFound, hStep]
          apply ih (by omega)
          intro hEnd
          rwa [show len - 1 = j by omega]
      · rw [within_eq_none (Nat.not_lt.mp hIn),
          if_neg (show ¬m.w + m.firstMatch d len j - d < wsize by omega)]
        rfl
    · rw [if_neg fun h => hd h.1] at hStep
      rw [if_neg hd, hStep]
      apply ih (by omega)
      intro hEnd
      have : m.w + (len - 1) - d = 0 := by omega
      rw [this]
      decide

/-- The loop over `fp` reads nothing that the loop over `fk` has not read. -/
theorem lastShallowWithin_eq (m : Memory) {j rest : Nat}
    (hRead : ∀ fp, fp < j + rest → m.w + fp - d < wsize) : m.lastShallowWithin d j rest =
      some (((List.range' j rest).reverse.find? fun fp =>
        d ≤ m.w + fp ∧ m.st (m.w + fp - d) = 2).getD j) := by
  induction rest with
  | zero => rfl
  | succ rest ih =>
    have hRest := ih fun fp hfp => hRead fp (by omega)
    unfold Memory.lastShallowWithin
    rw [List.range'_concat, List.reverse_append, Nat.one_mul]
    simp only [List.reverse_singleton, List.singleton_append, List.find?_cons]
    by_cases hd : d ≤ m.w + (j + rest)
    · rw [if_pos hd, within_of_lt (hRead (j + rest) (by omega)), Option.bind_eq_bind,
        Option.bind_some]
      by_cases hFound : m.st (m.w + (j + rest) - d) = 2
      · simp [hd, hFound]
      · simp [hFound, hRest]
    · simp [hd, hRest]

/-! ### The rounds -/

/-- The bytes skipped end before `WSIZE`, or the next scan leaves the array. -/
theorem skip_guarded {j p : Nat} (ha : a.w < wsize) :
    Guarded (j + cDepth ≤ p → a.w + (p - (cDepth - 1) - j) < wsize) (fun r => r.1.w < wsize)
      (a.skipWithin S d j p) (a.skip S d j p) := by
  unfold Window.skipWithin Window.skip
  by_cases hSkip : j + cDepth ≤ p
  · rw [if_pos hSkip, if_pos hSkip]
    have hPos : 0 < p - (cDepth - 1) - j := by
      unfold cDepth at hSkip ⊢
      omega
    generalize p - (cDepth - 1) - j = n at hPos
    obtain ⟨hSame, hEnds⟩ := skipRunWithin_eq (a := a) (d := d) n
    have hRun : ∀ a₁, (liftM (a.skipRun d n) : Run (Window σ)).run = some (.ok a₁) →
        a.skipRun d n = some a₁ := by
      intro a₁ h
      cases hSkipRun : a.skipRun d n with
      | none => simp [hSkipRun] at h
      | some a₂ =>
        rw [hSkipRun] at h
        exact congrArg some (Except.ok.inj (Option.some.inj h))
    refine Guarded.congr (p := a.w + n < wsize) ⟨fun hFits => ?_, fun hFits =>
      ?_, fun hNot => ?_⟩
      ⟨fun h _ => h, fun h => h hSkip⟩
    · rw [hSame hFits.le]
      apply bind_congr_run
      intro a₁ h
      obtain ⟨hw, -⟩ := skipRun_w (hRun a₁ h)
      apply scanRunWithin_eq
      show a₁.w < wsize
      omega
    · refine Gives.bind (P := fun a₁ => a₁.w = a.w + n) (Gives.lift fun a₁ h =>
        (skipRun_w h).1) ?_
      intro a₁ hw
      apply scanRun_bounded
      show a₁.w < wsize
      omega
    · by_cases hEnd : wsize < a.w + n
      · rw [hEnds hEnd hPos]
        rfl
      · -- the next byte is written at `WSIZE`
        rw [hSame (by omega)]
        cases hSkipRun : a.skipRun d n with
        | none => rfl
        | some a₁ =>
          obtain ⟨hw, hd⟩ := skipRun_w hSkipRun
          have hLe := hd hPos
          exact scanRunWithin_none S _ (by decide) (show d ≤ a₁.w by omega)
            (show wsize ≤ a₁.w by omega)
  · rw [if_neg hSkip, if_neg hSkip]
    exact Guarded.of_eq (fun h => absurd h hSkip) rfl (Gives.pure ha)

theorem round_guarded {len j : Nat} (hj : j < len) (ha : a.w < wsize) :
    Guarded (∀ x ∈ a.roundReach d len j, x < wsize) (fun r => r.1.w < wsize)
      (a.roundWithin S d len j) (a.round S d len j) := by
  obtain ⟨hk, hkLen⟩ := a.firstMatch_bounds (d := d) hj
  have hFirst := firstMatchWithin_eq (d := d) a.toMemory
    (show j + (len - j) = len by omega) (by omega)
  unfold Window.roundWithin Window.round Window.roundReach
  rw [hFirst]
  generalize a.firstMatch d len j = k at hk hkLen
  by_cases hIn : a.w + k - d < wsize
  · have hShallow : a.lastShallowWithin d j (k + 1 - j) = some (a.lastShallow d j k) :=
      lastShallowWithin_eq a.toMemory fun fp hfp => by omega
    simp only [if_pos hIn, lift_some, pure_bind, hShallow]
    generalize a.lastShallow d j k = p
    refine Guarded.congr ((skip_guarded S ha).bind (q := fun _ => True) ?_) ?_
    · rintro ⟨a₁, j₁, hit₁⟩ ha₁
      apply Guarded.of_eq trivial
      · simp only [scanRunWithin_eq S _ _ ha₁]
      · refine (scanRun_bounded S (k + 1 - j₁) j₁ ha₁).bind ?_
        rintro ⟨a₂, j₂, hit₂⟩ ha₂
        exact Gives.pure ha₂
    · by_cases hSkip : j + cDepth ≤ p
      · simp [hSkip, hIn]
      · simp [hSkip, hIn]
  · rw [if_neg hIn]
    exact ⟨fun hFits => absurd (hFits _ List.mem_cons_self) hIn,
      fun hFits => absurd (hFits _ List.mem_cons_self) hIn, fun _ => rfl⟩

theorem rounds_guarded {len j fuel : Nat} (ha : a.w < wsize) :
    Guarded (∀ x ∈ a.roundsReach S d len fuel j, x < wsize) (fun r => r.1.w < wsize)
      (a.roundsWithin S d len fuel j) (a.rounds S d len fuel j) := by
  induction fuel generalizing a j with
  | zero =>
    unfold Window.roundsWithin Window.rounds Window.roundsReach
    refine Guarded.of_eq (by simp) rfl ?_
    split
    · rintro r ⟨⟩
    · exact Gives.pure ha
  | succ fuel ih =>
    unfold Window.roundsWithin Window.rounds Window.roundsReach
    by_cases hj : j < len
    · simp only [if_pos hj]
      refine Guarded.congr ((round_guarded S hj ha).bind
        (q := fun r => r.2.2 = false → ∀ x ∈ r.1.roundsReach S d len fuel r.2.1,
          x < wsize) ?_) ?_
      · rintro ⟨a₁, j₁, hit₁⟩ ha₁
        cases hit₁ with
        | true => exact Guarded.of_eq (by simp) rfl (Gives.pure ha₁)
        | false => exact (ih ha₁).congr (by simp)
      · rw [List.forall_mem_append]
        apply and_congr_right
        intro _
        cases (a.round S d len j).run with
        | none => simp
        | some e =>
          cases e with
          | error m => simp
          | ok r =>
            obtain ⟨a₁, j₁, hit₁⟩ := r
            cases hit₁ with
            | true => simp
            | false => simp
    · simp only [if_neg hj]
      exact Guarded.of_eq (by simp) rfl (Gives.pure ha)

theorem literal_bounded (b : UInt8) (ha : a.w < wsize) :
    Gives (a.literal S b) fun r => r.1.w < wsize := by
  refine Gives.bind (P := fun _ => True) (Gives.lift fun _ _ => trivial) ?_
  rintro ⟨state, status⟩ -
  by_cases hHit : status = 0
  · simp only [if_pos hHit]
    exact Gives.pure ha
  · simp only [if_neg hHit]
    by_cases hFull : wsize - 1 ≤ a.w
    · simp only [if_pos hFull]
      exact Gives.throw
    · simp only [if_neg hFull]
      exact Gives.pure (show a.w + 1 < wsize by omega)

theorem token_guarded (l : UInt8) (dbuf : UInt16) (ha : a.w < wsize) :
    Guarded (∀ x ∈ a.tokenReach S l dbuf, x < wsize) (fun r => r.1.w < wsize)
      (a.tokenWithin S l dbuf) (a.token S l dbuf) := by
  unfold Window.tokenWithin Window.token Window.tokenReach
  by_cases hLiteral : dbuf = 0
  · simp only [if_pos hLiteral]
    apply Guarded.of_eq (by simp)
    · rw [Window.literalWithin, within_of_lt ha]
      rfl
    · exact literal_bounded S l ha
  · simp only [if_neg hLiteral]
    have hBorder : Guarded True (fun r => r.1.w < wsize)
        (a.leftBorderWithin S dbuf.toNat (l.toNat + 3) 0)
        (a.leftBorder S dbuf.toNat (l.toNat + 3) 0) :=
      Guarded.of_eq trivial (leftBorderWithin_eq S _ 0 ha) (leftBorder_bounded S _ 0 ha)
    refine Guarded.congr (hBorder.bind (q := fun r => r.2.2 = false → ∀ x ∈
      r.1.roundsReach S dbuf.toNat (l.toNat + 3) (l.toNat + 3) r.2.1, x < wsize) ?_) ?_
    · rintro ⟨a₁, j₁, hit₁⟩ ha₁
      cases hit₁ with
      | true =>
        apply Guarded.of_eq (by simp) (by simp)
        simp only [if_true]
        exact Gives.pure ha₁
      | false => exact (rounds_guarded S ha₁).congr (by simp)
    · cases (a.leftBorder S dbuf.toNat (l.toNat + 3) 0).run with
      | none => simp
      | some e =>
        cases e with
        | error m => simp
        | ok r =>
          obtain ⟨a₁, j₁, hit₁⟩ := r
          cases hit₁ with
          | true => simp
          | false => simp

theorem tokens_guarded (l : Nat → UInt8) (dbuf : Nat → UInt16) (rest i : Nat)
    (ha : a.w < wsize) :
    Guarded (∀ x ∈ a.tokensReach S l dbuf rest i, x < wsize) (fun r => r.1.w < wsize)
      (a.tokensWithin S l dbuf rest i) (a.tokens S l dbuf rest i) := by
  induction rest generalizing a i with
  | zero => exact Guarded.of_eq (by simp [Window.tokensReach]) rfl (Gives.pure ha)
  | succ rest ih =>
    unfold Window.tokensWithin Window.tokens Window.tokensReach
    refine Guarded.congr ((token_guarded S (l i) (dbuf i) ha).bind
      (q := fun r => r.2 = false → ∀ x ∈ r.1.tokensReach S l dbuf rest (i + 1),
        x < wsize) ?_) ?_
    · rintro ⟨a₁, hit₁⟩ ha₁
      cases hit₁ with
      | true =>
        apply Guarded.of_eq (by simp) (by simp)
        simp only [if_true]
        exact Gives.pure ha₁
      | false => simpa using ih (i + 1) ha₁
    · rw [List.forall_mem_append]
      apply and_congr_right
      intro _
      cases (a.token S (l i) (dbuf i)).run with
      | none => simp
      | some e =>
        cases e with
        | error m => simp
        | ok r =>
          obtain ⟨a₁, hit₁⟩ := r
          cases hit₁ with
          | true => simp
          | false => simp

end Loops

/-! ### The arrays -/

/-- On the arrays `acch` does the same as without their bounds, exactly when no round reaches
`WSIZE`. -/
theorem acchWithin_eq (acsm : AcsmxStruct) (l : Nat → UInt8) (dbuf : Nat → UInt16)
    (offset lastLit : Nat) (m : Memory) :
    acchWithin acsm l dbuf offset lastLit m =
      if ∀ x ∈ reach acsm l dbuf offset lastLit m,
        x < wsize then acch acsm l dbuf offset lastLit m
      else none := by
  have hGuard := tokens_guarded (scanner acsm)
    (a := ⟨{ m with w := 0 }, (scanner acsm).root⟩) l dbuf
    (lastLit - offset) offset (show 0 < wsize by decide)
  by_cases hReach : ∀ x ∈ reach acsm l dbuf offset lastLit m, x < wsize
  · rw [if_pos hReach, acchWithin, hGuard.same hReach, acch, search]
    generalize (Window.tokens _ _ _ _ _ _).run = r
    rcases r with _ | m | ⟨a, _ | i⟩ <;> rfl
  · rw [if_neg hReach, acchWithin, hGuard.fails hReach]
    rfl

end Shutter.Acch
