import Shutter.Acch.Correct
import Mathlib.Data.List.Find

/-! What earlier calls of `acch` leave in `win` and `st`.  The loops over `fk` and `fp` look ahead
of the bytes that a call has written, and a byte copied without a scan keeps the status of an
earlier byte there.  A call that reads no such status does not depend on the arrays it finds. -/

namespace Shutter.Acch

open Shutter.Acsm

variable {σ : Type}

/-! ### The statuses of earlier calls -/

/-- A status that `scanAC` never gives. -/
def unset : Nat := 3

/-- Arrays in which no status has been written. -/
def unsetMemory : Memory := ⟨fun _ => 0, fun _ => unset, 0⟩

/-- The unwritten statuses that the loops over `fk` and `fp` of a round read. -/
def Window.roundStale (d len j : Nat) (a : Window σ) : List Nat :=
  (List.range' j (a.firstMatch d len j + 1 - j)).filter fun fk =>
    d ≤ a.w + fk ∧ a.st (a.w + fk - d) = unset

/-- The unwritten statuses that the rounds of a copy token read. -/
def Window.roundsStale (S : Scanner σ) (d len : Nat) : Nat → Nat → Window σ → List Nat
  | 0, _, _ => []
  | fuel + 1, j, a =>
    if j < len then
      a.roundStale d len j ++
        match (a.round S d len j).run with
        | some (.ok (a, j, false)) => roundsStale S d len fuel j a
        | _ => []
    else []

/-- The unwritten statuses that a token reads. -/
def Window.tokenStale (S : Scanner σ) (l : UInt8) (dbuf : UInt16) (a : Window σ) : List Nat :=
  if dbuf = 0 then [] else
    match (a.leftBorder S dbuf.toNat (l.toNat + 3) 0).run with
    | some (.ok (a, j, false)) =>
      a.roundsStale S dbuf.toNat (l.toNat + 3) (l.toNat + 3) j
    | _ => []

/-- The unwritten statuses that the loop over the tokens reads. -/
def Window.tokensStale (S : Scanner σ) (l : Nat → UInt8) (dbuf : Nat → UInt16) :
    Nat → Nat → Window σ → List Nat
  | 0, _, _ => []
  | rest + 1, i, a =>
    a.tokenStale S (l i) (dbuf i) ++
      match (a.token S (l i) (dbuf i)).run with
      | some (.ok (a, false)) => tokensStale S l dbuf rest (i + 1) a
      | _ => []

/-- The statuses that a call reads before it has written them. -/
def stale (S : Scanner σ) (l : Nat → UInt8) (dbuf : Nat → UInt16) (offset lastLit : Nat) :
    List Nat :=
  Window.tokensStale S l dbuf (lastLit - offset) offset ⟨unsetMemory, S.root⟩

/-! ### Two runs -/

/-- The second window has the bytes and the statuses that the first has written. -/
structure Alike (a b : Window σ) : Prop where
  w : a.w = b.w
  state : a.state = b.state
  win : ∀ i, i < a.w → a.win i = b.win i
  st : ∀ i, a.st i ≠ unset → a.st i = b.st i

/-- Both parts of `acch` end with results of `Q`, or both return 0, or both fail. -/
def EndAlike {α : Type} (Q : α → α → Prop) (x y : Run α) : Prop :=
  match x.run, y.run with
  | some (.ok r), some (.ok q) => Q r q
  | some (.error _), some (.error _) => True
  | none, none => True
  | _, _ => False

section EndAlike

variable {α β : Type} {Q : α → α → Prop} {Q' : β → β → Prop} {x y : Run α}

theorem EndAlike.pure {r q : α} (h : Q r q) : EndAlike Q (pure r) (pure q) := h

theorem EndAlike.throw (m m' : Memory) : EndAlike Q (throw m) (throw m') := trivial

theorem EndAlike.none : EndAlike Q (none : Option _) (none : Option _) := trivial

theorem EndAlike.bind_run {f g : α → Run β} (h : EndAlike Q x y)
    (hfg : ∀ r q, x.run = some (.ok r) → Q r q → EndAlike Q' (f r) (g q)) :
    EndAlike Q' (x >>= f) (y >>= g) := by
  unfold EndAlike at h ⊢
  rw [ExceptT.run_bind, ExceptT.run_bind]
  cases hx : x.run with
  | none =>
    cases hy : y.run with
    | none => trivial
    | some q => simp [hx, hy] at h
  | some r =>
    cases hy : y.run with
    | none => cases r <;> simp [hx, hy] at h
    | some q =>
      cases r with
      | error m =>
        cases q with
        | error m' => trivial
        | ok q => simp [hx, hy] at h
      | ok r =>
        cases q with
        | error m' => simp [hx, hy] at h
        | ok q =>
          simp only [hx, hy] at h
          exact hfg r q hx h

theorem EndAlike.bind {f g : α → Run β} (h : EndAlike Q x y)
    (hfg : ∀ r q, Q r q → EndAlike Q' (f r) (g q)) : EndAlike Q' (x >>= f) (y >>= g) :=
  h.bind_run fun r q _ => hfg r q

theorem EndAlike.ite {p p' : Prop} [Decidable p] [Decidable p'] {x' y' : Run α} (hp : p ↔ p')
    (hx : p → EndAlike Q x y) (hx' : ¬p → EndAlike Q x' y') :
    EndAlike Q (if p then x else x') (if p' then y else y') := by
  by_cases h : p
  · rw [if_pos h, if_pos (hp.mp h)]
    exact hx h
  · rw [if_neg h, if_neg (mt hp.mpr h)]
    exact hx' h

end EndAlike

/-- The windows and the other results of two parts of `acch`. -/
def SameResult {α : Type} (r q : Window σ × α) : Prop := Alike r.1 q.1 ∧ r.2 = q.2

section Alike

variable {S : Scanner σ} {a b : Window σ}

theorem Alike.put (h : Alike a b) (c : UInt8) (state : σ) (status : Nat) :
    Alike (a.put c state status) (b.put c state status) := by
  refine ⟨congrArg (· + 1) h.w, rfl, ?_, ?_⟩
  · intro i hi
    show Function.update a.win a.w c i = Function.update b.win b.w c i
    rw [← h.w]
    by_cases hLast : i = a.w
    · rw [hLast, Function.update_self, Function.update_self]
    · rw [Function.update_of_ne hLast, Function.update_of_ne hLast]
      apply h.win
      have : i < a.w + 1 := hi
      omega
  · intro i
    show Function.update a.st a.w status i ≠ unset →
      Function.update a.st a.w status i = Function.update b.st b.w status i
    rw [← h.w]
    by_cases hLast : i = a.w
    · rw [hLast, Function.update_self, Function.update_self]
      exact fun _ => rfl
    · rw [Function.update_of_ne hLast, Function.update_of_ne hLast]
      exact h.st i

theorem Alike.source (h : Alike a b) {d : Nat} (hd : 0 < d) (hw : d ≤ a.w) :
    a.win (a.w - d) = b.win (b.w - d) := by
  rw [← h.w]
  apply h.win
  omega

theorem Alike.copyByte (h : Alike a b) {d : Nat} (hd : 0 < d) (hw : d ≤ a.w) :
    EndAlike SameResult (a.copyByte S d) (b.copyByte S d) := by
  unfold Window.copyByte
  simp only [← h.source hd hw, ← h.state]
  cases S.scan a.state (a.win (a.w - d)) with
  | none => exact EndAlike.none
  | some r =>
    simp only [lift_some, pure_bind]
    apply EndAlike.ite
    · rw [h.w]
    · exact fun _ => EndAlike.throw _ _
    · exact fun _ => EndAlike.pure ⟨h.put _ _ _, rfl⟩

theorem Alike.leftBorder (h : Alike a b) {d : Nat} (hd : 0 < d) (rest j : Nat) :
    EndAlike SameResult (a.leftBorder S d rest j) (b.leftBorder S d rest j) := by
  induction rest generalizing j a b with
  | zero => exact EndAlike.pure ⟨h, rfl⟩
  | succ rest ih =>
    unfold Window.leftBorder
    rw [← h.state]
    cases S.dept a.state with
    | none => exact EndAlike.none
    | some dept =>
      simp only [lift_some, pure_bind]
      apply EndAlike.ite Iff.rfl
      · intro _
        apply EndAlike.ite
        · rw [h.w]
        · intro hw
          apply (h.copyByte hd hw).bind
          rintro ⟨a, hit⟩ ⟨b, -⟩ ⟨hNext, rfl⟩
          cases hit
          · exact ih hNext _
          · exact EndAlike.pure ⟨hNext, rfl⟩
        · exact fun _ => ih h _
      · exact fun _ => EndAlike.pure ⟨h, rfl⟩

theorem Alike.scanRun (h : Alike a b) {d : Nat} (hd : 0 < d) (rest j : Nat) :
    EndAlike SameResult (a.scanRun S d rest j) (b.scanRun S d rest j) := by
  induction rest generalizing j a b with
  | zero => exact EndAlike.pure ⟨h, rfl⟩
  | succ rest ih =>
    unfold Window.scanRun
    apply EndAlike.ite
    · rw [h.w]
    · intro hw
      apply (h.copyByte hd hw).bind
      rintro ⟨a, hit⟩ ⟨b, -⟩ ⟨hNext, rfl⟩
      cases hit
      · exact ih hNext _
      · exact EndAlike.pure ⟨hNext, rfl⟩
    · exact fun _ => ih h _

theorem Alike.skipByte (h : Alike a b) {d : Nat} (hd : 0 < d) (hw : d ≤ a.w) :
    Alike { a with win := Function.update a.win a.w (a.win (a.w - d)), w := a.w + 1 }
      { b with win := Function.update b.win b.w (b.win (b.w - d)), w := b.w + 1 } := by
  refine ⟨congrArg (· + 1) h.w, h.state, ?_, h.st⟩
  intro i hi
  show Function.update a.win a.w _ i = Function.update b.win b.w _ i
  rw [← h.source hd hw, ← h.w]
  by_cases hLast : i = a.w
  · rw [hLast, Function.update_self, Function.update_self]
  · rw [Function.update_of_ne hLast, Function.update_of_ne hLast]
    apply h.win
    have : i < a.w + 1 := hi
    omega

theorem Alike.skipRun (h : Alike a b) {d : Nat} (hd : 0 < d) (rest : Nat) :
    EndAlike Alike (a.skipRun d rest : Run (Window σ)) (b.skipRun d rest : Run (Window σ)) := by
  induction rest generalizing a b with
  | zero => exact EndAlike.pure h
  | succ rest ih =>
    unfold Window.skipRun
    rw [← h.w]
    by_cases hw : d ≤ a.w
    · rw [if_pos hw, if_pos hw]
      have hNext := ih (h.skipByte hd hw)
      rwa [← h.w] at hNext
    · rw [if_neg hw, if_neg hw]
      exact EndAlike.none

theorem Alike.skip (h : Alike a b) {d : Nat} (hd : 0 < d) (j p : Nat) :
    EndAlike SameResult (a.skip S d j p) (b.skip S d j p) := by
  unfold Window.skip
  apply EndAlike.ite Iff.rfl
  · intro _
    apply (h.skipRun hd _).bind
    intro a b h
    have hRoot : Alike { a with state := S.root } { b with state := S.root } :=
      ⟨h.w, rfl, h.win, h.st⟩
    exact hRoot.scanRun hd _ _
  · exact fun _ => EndAlike.pure ⟨h, rfl⟩

/-! ### The statuses that a round reads -/

/-- The search of the loop over `fk` depends on the statuses up to the one that it finds. -/
theorem find?_range'_congr {p q : Nat → Bool} (n j : Nat)
    (h : ∀ k, j ≤ k → k ≤ ((List.range' j n).find? p).getD (j + n - 1) → p k = q k) :
    (List.range' j n).find? p = (List.range' j n).find? q := by
  induction n generalizing j with
  | zero => rfl
  | succ n ih =>
    rw [List.range'_succ, List.find?_cons, List.find?_cons]
    rw [List.range'_succ, List.find?_cons] at h
    by_cases hp : p j = true
    · have hq := h j (Nat.le_refl _) (by simp [hp])
      rw [← hq, hp]
    · rw [Bool.not_eq_true] at hp
      simp only [hp] at h ⊢
      have hRange : ∀ k, j + 1 ≤ k →
          k ≤ ((List.range' (j + 1) n).find? p).getD (j + 1 + n - 1) → p k = q k := by
        intro k hk hLast
        apply h k (by omega)
        rwa [show j + (n + 1) - 1 = j + 1 + n - 1 by omega]
      have hFirst : j ≤ ((List.range' (j + 1) n).find? p).getD (j + (n + 1) - 1) := by
        cases hFind : (List.range' (j + 1) n).find? p with
        | none => simp
        | some k =>
          have := List.mem_range'_1.mp (List.mem_of_find?_eq_some hFind)
          simp only [Option.getD_some]
          omega
      rw [← h j (Nat.le_refl _) hFirst, hp]
      exact ih (j + 1) hRange

/-- A round that reads no unwritten status finds the same in both windows. -/
theorem Alike.status (h : Alike a b) {d len j : Nat} (hStale : a.roundStale d len j = [])
    {fk : Nat} (hj : j ≤ fk) (hk : fk ≤ a.firstMatch d len j) (hw : d ≤ a.w + fk) :
    a.st (a.w + fk - d) = b.st (b.w + fk - d) := by
  rw [← h.w]
  apply h.st
  intro hUnset
  have hRead := (List.filter_eq_nil_iff.mp hStale) fk (List.mem_range'_1.mpr (by omega))
  exact hRead (by simp [hw, hUnset])

theorem Alike.firstMatch (h : Alike a b) {d len j : Nat} (hj : j < len)
    (hStale : a.roundStale d len j = []) : a.firstMatch d len j = b.firstMatch d len j := by
  unfold Memory.firstMatch
  rw [find?_range'_congr (len - j) j]
  intro k hk hLast
  rw [show j + (len - j) - 1 = len - 1 by omega] at hLast
  rw [← h.w]
  apply decide_eq_decide.mpr
  apply and_congr_right
  intro hw
  rw [h.status hStale hk hLast hw, h.w]

theorem Alike.lastShallow (h : Alike a b) {d len j : Nat} (hStale : a.roundStale d len j = []) :
    a.lastShallow d j (a.firstMatch d len j) = b.lastShallow d j (a.firstMatch d len j) := by
  unfold Memory.lastShallow
  rw [List.find?_congr]
  intro k hk
  obtain ⟨hj, hLast⟩ := List.mem_range'_1.mp (List.mem_reverse.mp hk)
  rw [← h.w]
  apply decide_eq_decide.mpr
  apply and_congr_right
  intro hw
  rw [h.status hStale hj (by omega) hw, h.w]

theorem Alike.round (h : Alike a b) {d len j : Nat} (hd : 0 < d) (hj : j < len)
    (hStale : a.roundStale d len j = []) :
    EndAlike SameResult (a.round S d len j) (b.round S d len j) := by
  unfold Window.round
  simp only [← h.firstMatch hj hStale, ← h.lastShallow hStale]
  apply (h.skip hd _ _).bind
  rintro ⟨a, j, tag⟩ ⟨b, -⟩ ⟨hSkip, rfl⟩
  apply (hSkip.scanRun hd _ _).bind
  rintro ⟨a, j, hit⟩ ⟨b, -⟩ ⟨hScan, rfl⟩
  exact EndAlike.pure ⟨hScan, rfl⟩

theorem Alike.rounds (h : Alike a b) {d : Nat} (hd : 0 < d) (len : Nat) {fuel j : Nat}
    (hStale : a.roundsStale S d len fuel j = []) :
    EndAlike SameResult (a.rounds S d len fuel j) (b.rounds S d len fuel j) := by
  induction fuel generalizing j a b with
  | zero =>
    unfold Window.rounds
    apply EndAlike.ite Iff.rfl
    · exact fun _ => EndAlike.none
    · exact fun _ => EndAlike.pure ⟨h, rfl⟩
  | succ fuel ih =>
    unfold Window.rounds
    apply EndAlike.ite Iff.rfl
    · intro hj
      rw [Window.roundsStale, if_pos hj] at hStale
      obtain ⟨hRound, hRest⟩ := List.append_eq_nil_iff.mp hStale
      apply (h.round hd hj hRound).bind_run
      rintro ⟨a, j, tag⟩ ⟨b, -⟩ hRun ⟨hNext, rfl⟩
      cases tag with
      | true => exact EndAlike.pure ⟨hNext, rfl⟩
      | false =>
        rw [hRun] at hRest
        exact ih hNext hRest
    · exact fun _ => EndAlike.pure ⟨h, rfl⟩

theorem Alike.literal (h : Alike a b) (c : UInt8) :
    EndAlike SameResult (a.literal S c) (b.literal S c) := by
  unfold Window.literal
  rw [← h.state]
  cases S.scan a.state c with
  | none => exact EndAlike.none
  | some r =>
    simp only [lift_some, pure_bind]
    apply EndAlike.ite Iff.rfl
    · intro _
      refine EndAlike.pure ⟨⟨h.w, rfl, ?_, h.st⟩, rfl⟩
      intro i hi
      have hNe : i ≠ a.w := Nat.ne_of_lt hi
      show Function.update a.win a.w c i = Function.update b.win b.w c i
      rw [← h.w, Function.update_of_ne hNe, Function.update_of_ne hNe]
      exact h.win i hi
    · intro _
      apply EndAlike.ite
      · rw [h.w]
      · exact fun _ => EndAlike.throw _ _
      · exact fun _ => EndAlike.pure ⟨h.put _ _ _, rfl⟩

theorem Alike.token (h : Alike a b) {l : UInt8} {dbuf : UInt16}
    (hStale : a.tokenStale S l dbuf = []) :
    EndAlike SameResult (a.token S l dbuf) (b.token S l dbuf) := by
  unfold Window.token
  apply EndAlike.ite Iff.rfl
  · exact fun _ => h.literal l
  · intro hCopy
    rw [Window.tokenStale, if_neg hCopy] at hStale
    have hd : 0 < dbuf.toNat := Nat.pos_of_ne_zero fun hZero => hCopy (UInt16.toNat_inj.mp hZero)
    apply (h.leftBorder hd _ _).bind_run
    rintro ⟨a, j, tag⟩ ⟨b, -⟩ hRun ⟨hNext, rfl⟩
    cases tag with
    | true => exact EndAlike.pure ⟨hNext, rfl⟩
    | false =>
      rw [hRun] at hStale
      exact hNext.rounds hd _ hStale

theorem Alike.tokens (h : Alike a b) {l : Nat → UInt8} {dbuf : Nat → UInt16} {rest i : Nat}
    (hStale : a.tokensStale S l dbuf rest i = []) :
    EndAlike SameResult (a.tokens S l dbuf rest i) (b.tokens S l dbuf rest i) := by
  induction rest generalizing i a b with
  | zero => exact EndAlike.pure ⟨h, rfl⟩
  | succ rest ih =>
    obtain ⟨hToken, hRest⟩ := List.append_eq_nil_iff.mp hStale
    unfold Window.tokens
    apply (h.token hToken).bind_run
    rintro ⟨a, tag⟩ ⟨b, -⟩ hRun ⟨hNext, rfl⟩
    cases tag with
    | true => exact EndAlike.pure ⟨hNext, rfl⟩
    | false =>
      rw [hRun] at hRest
      exact ih hNext hRest

end Alike

/-! ### The calls before -/

/-- What the caller of `acch` sees. -/
def Outcome.result (o : Outcome) : Nat × Option Nat := (o.ret, o.textLen)

/-- A call that reads no status before it has written it gives the same over all arrays. -/
theorem search_result (S : Scanner σ) {l : Nat → UInt8} {dbuf : Nat → UInt16}
    {offset lastLit : Nat} (hStale : stale S l dbuf offset lastLit = []) (m : Memory) :
    (search S l dbuf offset lastLit m).map Outcome.result =
      (search S l dbuf offset lastLit unsetMemory).map Outcome.result := by
  have hStart : Alike (⟨unsetMemory, S.root⟩ : Window σ) ⟨{ m with w := 0 }, S.root⟩ :=
    ⟨rfl, rfl, fun i hi => absurd hi (Nat.not_lt_zero i), fun i hSet => absurd rfl hSet⟩
  have hEnds := hStart.tokens hStale
  unfold EndAlike at hEnds
  unfold search
  rw [show ({ unsetMemory with w := 0 } : Memory) = unsetMemory from rfl]
  revert hEnds
  generalize (Window.tokens S l dbuf _ offset ⟨unsetMemory, S.root⟩).run = x
  generalize (Window.tokens S l dbuf _ offset ⟨{ m with w := 0 }, S.root⟩).run = y
  intro hEnds
  cases x with
  | none => cases y with
    | none => rfl
    | some y => exact hEnds.elim
  | some x => cases y with
    | none => cases x <;> exact hEnds.elim
    | some y => cases x with
      | error m => cases y with
        | error m' => rfl
        | ok y => exact hEnds.elim
      | ok x => cases y with
        | error m => exact hEnds.elim
        | ok y =>
          obtain ⟨a, hit⟩ := x
          obtain ⟨b, hit'⟩ := y
          have hHit : hit = hit' := hEnds.2
          subst hHit
          cases hit <;> rfl

/-- A call of `acch`. -/
structure Call where
  acsm : AcsmxStruct
  l : Nat → UInt8
  dbuf : Nat → UInt16
  offset : Nat
  lastLit : Nat

def Call.run (call : Call) (m : Memory) : Option Outcome :=
  acch call.acsm call.l call.dbuf call.offset call.lastLit m

/-- The arrays after a list of calls. -/
def Memory.after (m : Memory) : List Call → Option Memory
  | [] => some m
  | call :: calls => do
    let o ← call.run m
    o.memory.after calls

/-- The caller of `acch` sees the same after all earlier calls. -/
def Call.Independent (call : Call) : Prop :=
  ∀ (calls calls' : List Call) (m m' : Memory), zeroMemory.after calls = some m →
    zeroMemory.after calls' = some m' →
    (call.run m).map Outcome.result = (call.run m').map Outcome.result

/-- The result of `acch` does not depend on the calls before where the loops over `fk` and `fp` read
only statuses that the call has written. -/
theorem matching_forgets (acsm acsm' : AcsmxStruct) (hCompile : acsmcompile acsm = some acsm')
    (hNonempty : ∀ p ∈ acsm.acsmPatterns, p ≠ []) (l : Nat → UInt8) (dbuf : Nat → UInt16)
    (offset lastLit : Nat)
    (hStale : stale (textScanner acsm.acsmPatterns) l dbuf offset lastLit = []) :
    (⟨acsm', l, dbuf, offset, lastLit⟩ : Call).Independent := by
  intro calls calls' m m' _ _
  unfold Call.run
  simp only [acch_eq hCompile hNonempty]
  rw [search_result _ hStale m, search_result _ hStale m']

/-- The letters `abcde`, then a copy of the first three. -/
theorem matching_forgets_abc : ∃ acsm',
    acsmcompile (acsmaddPattern acsmnew [99, 97, 98]) = some acsm' ∧
    (⟨acsm', fun i => [97, 98, 99, 100, 101, 0].getD i 0, fun i => [0, 0, 0, 0, 0, 5].getD i 0, 0,
      6⟩ : Call).Independent := by
  obtain ⟨acsm', -, -, hCompile, -⟩ := acsmcompile_holds (acsmaddPattern acsmnew [99, 97, 98])
  exact ⟨acsm', hCompile, matching_forgets _ acsm' hCompile (by decide) _ _ 0 6
    (by decide +kernel)⟩

/-- The pattern `ababababc` is found in the letters `ab`, a copy of 20 bytes from the distance 2 and
the letter `c`.  After a call on 27 letters `x` the copy reads their statuses, which let it skip the
bytes of the pattern. -/
theorem acch_depends_on_memory :
    ¬∀ (acsm acsm' : AcsmxStruct), acsmcompile acsm = some acsm' →
      (∀ p ∈ acsm.acsmPatterns, p ≠ []) →
      ∀ (l : Nat → UInt8) (dbuf : Nat → UInt16) (lastLit : Nat)
      (t : List UInt8), expansion l dbuf lastLit = some t → t.length < wsize - 1 →
      (⟨acsm', l, dbuf, 0, lastLit⟩ : Call).Independent := by
  intro h
  let p : Pattern := [97, 98, 97, 98, 97, 98, 97, 98, 99]
  let l : Nat → UInt8 := fun i => [97, 98, 17, 99].getD i 0
  let dbuf : Nat → UInt16 := fun i => [0, 0, 2, 0].getD i 0
  let x : Nat → UInt8 := fun _ => 120
  let t : List UInt8 := [97, 98, 97, 98, 97, 98, 97, 98, 97, 98, 97, 98, 97, 98, 97, 98, 97, 98,
    97, 98, 97, 98, 99]
  obtain ⟨acsm', -, -, hCompile, -⟩ := acsmcompile_holds (acsmaddPattern acsmnew p)
  have hIndependent :=
    h _ acsm' hCompile (by decide) l dbuf 4 t (by decide +kernel) (by decide +kernel)
  have hFound : (search (textScanner [p]) l dbuf 0 4 zeroMemory).map Outcome.result =
      some (1, some 3) := by
    decide +kernel
  have hMissed : ((search (textScanner [p]) x (fun _ => 0) 0 27 zeroMemory).bind fun o =>
      search (textScanner [p]) l dbuf 0 4 o.memory).map Outcome.result = some (0, none) := by
    decide +kernel
  have hAcch : ∀ l dbuf lastLit m,
      acch acsm' l dbuf 0 lastLit m = search (textScanner [p]) l dbuf 0 lastLit m :=
    fun l dbuf lastLit m => acch_eq hCompile (by decide) l dbuf 0 lastLit m
  obtain ⟨o, hFirst, hSecond⟩ := Option.map_eq_some_iff.mp hMissed
  obtain ⟨o', hCall, hRest⟩ := Option.bind_eq_some_iff.mp hFirst
  have hSame := hIndependent [] [⟨acsm', x, fun _ => 0, 0, 27⟩] zeroMemory o'.memory rfl
    (by simp only [Memory.after, Call.run, hAcch, hCall, Option.bind_eq_bind, Option.bind_some])
  simp only [Call.run, hAcch, hFound, hRest, Option.map_some, hSecond] at hSame
  simp at hSame

end Shutter.Acch
