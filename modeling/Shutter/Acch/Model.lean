import Shutter.Acsm.Table
import Mathlib.Logic.Function.Basic

/-! The matcher `acch` of `acsm.c`, which searches the tokens of compressed text.  The static arrays
`win` and `st` are the memory from their first byte on.  A copy token keeps the bytes of its source,
and the loops scan only those that the statuses of the source do not rule out.

The loops are written over any automaton, so that one argument serves the state table and the
patterns that it stands for. -/

namespace Shutter.Acch

open Shutter.Acsm

/-- `CDepth`. -/
def cDepth : Nat := 4

/-- `WSIZE`. -/
def wsize : Nat := 0x80000

/-- What `acch` asks of an automaton: its first state, the state and the status after a byte, and
the depth of a state.  The functions fail where the table is missing. -/
structure Scanner (σ : Type) where
  root : σ
  scan : σ → UInt8 → Option (σ × Nat)
  dept : σ → Option Nat

/-- `fsm`, with `*out`. -/
def fsm (acsm : AcsmxStruct) (state : Nat) (e : UInt8) : Option (Nat × Bool) := do
  let table ← acsm.acsmStateTable
  let state ← table.nextState state e
  some (state, !(table.matchList state).isEmpty)

/-- `scanAC`, with `*status`: 0 after a match, 1 in a deep state and 2 in a shallow one. -/
def scanAC (acsm : AcsmxStruct) (state : Nat) (b : UInt8) : Option (Nat × Nat) := do
  let (state, isMatch) ← fsm acsm state b
  some (state, if isMatch then 0 else if cDepth ≤ acsm.dept state then 1 else 2)

/-- The automaton of a compiled structure. -/
def scanner (acsm : AcsmxStruct) : Scanner Nat where
  root := 0
  scan := scanAC acsm
  dept state := acsm.acsmStateTable.map fun _ => acsm.dept state

/-- The arrays `win` and `st`, and `w`. -/
structure Memory where
  win : Nat → UInt8
  st : Nat → Nat
  w : Nat

/-- The variables of the loops. -/
structure Window (σ : Type) extends Memory where
  state : σ

/-- A part of `acch`.  It throws where `acch` returns 0 because `w` is too large. -/
abbrev Run (α : Type) := ExceptT Memory Option α

variable {σ : Type}

/-- The writes of one byte and its status. -/
def Window.put (a : Window σ) (b : UInt8) (state : σ) (status : Nat) : Window σ :=
  ⟨⟨Function.update a.win a.w b, Function.update a.st a.w status, a.w + 1⟩, state⟩

/-- The arrays where `acch` gives up: `win` has the byte, `st` has no status for it. -/
def Window.full (a : Window σ) (b : UInt8) : Memory := ⟨Function.update a.win a.w b, a.st, a.w⟩

/-- The body that the loops over a copied byte share.  The flag says that `status` is 0. -/
def Window.copyByte (S : Scanner σ) (d : Nat) (a : Window σ) : Run (Window σ × Bool) := do
  let b := a.win (a.w - d)
  let (state, status) ← S.scan a.state b
  if wsize - 1 ≤ a.w then throw (a.full b)
  else pure (a.put b state status, status == 0)

/-- The loop of the left border, with `rest` bytes of the copy left: the number of bytes done,
and `tag`. -/
def Window.leftBorder (S : Scanner σ) (d : Nat) : Nat → Nat → Window σ →
    Run (Window σ × Nat × Bool)
  | 0, j, a => pure (a, j, false)
  | rest + 1, j, a => do
    let dept ← S.dept a.state
    if j < dept then
      if d ≤ a.w then do
        let (a, hit) ← a.copyByte S d
        if hit then pure (a, j + 1, true) else leftBorder S d rest (j + 1) a
      else leftBorder S d rest (j + 1) a
    else pure (a, j, false)

/-- The loops over `j < p` and over `l <= k`.  A hit ends the loop before `j` counts its byte. -/
def Window.scanRun (S : Scanner σ) (d : Nat) : Nat → Nat → Window σ →
    Run (Window σ × Nat × Bool)
  | 0, j, a => pure (a, j, false)
  | rest + 1, j, a =>
    if d ≤ a.w then do
      let (a, hit) ← a.copyByte S d
      if hit then pure (a, j, true) else scanRun S d rest (j + 1) a
    else scanRun S d rest (j + 1) a

/-- The loop that copies bytes without a scan.  It leaves their statuses as they are. -/
def Window.skipRun (d : Nat) : Nat → Window σ → Option (Window σ)
  | 0, a => some a
  | rest + 1, a =>
    if d ≤ a.w then
      skipRun d rest { a with win := Function.update a.win a.w (a.win (a.w - d)), w := a.w + 1 }
    else none

/-- The loop over `fk`: the index `k` of the first byte whose status reads 0, or of the last. -/
def Memory.firstMatch (m : Memory) (d len j : Nat) : Nat :=
  ((List.range' j (len - j)).find? fun fk => d ≤ m.w + fk ∧ m.st (m.w + fk - d) = 0).getD
    (len - 1)

/-- The loop over `fp`: the index `p` of the last byte up to `k` whose status reads 2, or `j`. -/
def Memory.lastShallow (m : Memory) (d j k : Nat) : Nat :=
  ((List.range' j (k + 1 - j)).reverse.find? fun fp =>
    d ≤ m.w + fp ∧ m.st (m.w + fp - d) = 2).getD j

/-- The bytes from `j` to `p - CDepth` are copied without a scan, and the automaton starts again at
the byte after them. -/
def Window.skip (S : Scanner σ) (d j p : Nat) (a : Window σ) : Run (Window σ × Nat × Bool) :=
  if j + cDepth ≤ p then do
    let a ← a.skipRun d (p - (cDepth - 1) - j)
    { a with state := S.root }.scanRun S d (cDepth - 1) (p - (cDepth - 1))
  else pure (a, j, false)

/-- The body of `while (k < len - 1)`: the index after `k`, and `tag`. -/
def Window.round (S : Scanner σ) (d len j : Nat) (a : Window σ) :
    Run (Window σ × Nat × Bool) := do
  let k := a.firstMatch d len j
  let (a, j, tag) ← a.skip S d j (a.lastShallow d j k)
  let (a, _, hit) ← a.scanRun S d (k + 1 - j) j
  pure (a, k + 1, tag || hit)

/-- The loop `while (k < len - 1)`, where `k` is `j - 1`. -/
def Window.rounds (S : Scanner σ) (d len : Nat) : Nat → Nat → Window σ →
    Run (Window σ × Bool)
  | 0, j, a => if j < len then (none : Option _) else pure (a, false)
  | fuel + 1, j, a =>
    if j < len then do
      let (a, j, tag) ← a.round S d len j
      if tag then pure (a, true) else rounds S d len fuel j a
    else pure (a, false)

/-- The branch for a copy of `len` bytes from the distance `d`. -/
def Window.copy (S : Scanner σ) (d len : Nat) (a : Window σ) : Run (Window σ × Bool) := do
  let (a, j, tag) ← a.leftBorder S d len 0
  if tag then pure (a, true) else a.rounds S d len len j

/-- The branch for a literal, which tests its status before it tests `w`. -/
def Window.literal (S : Scanner σ) (b : UInt8) (a : Window σ) : Run (Window σ × Bool) := do
  let (state, status) ← S.scan a.state b
  if status = 0 then pure (⟨a.full b, state⟩, true)
  else if wsize - 1 ≤ a.w then throw (a.full b)
  else pure (a.put b state status, false)

/-- The body of the loop over the tokens. -/
def Window.token (S : Scanner σ) (l : UInt8) (dbuf : UInt16) (a : Window σ) :
    Run (Window σ × Bool) :=
  if dbuf = 0 then a.literal S l else a.copy S dbuf.toNat (l.toNat + 3)

/-- The loop over the tokens, of which `rest` are left: the index of the token that hit. -/
def Window.tokens (S : Scanner σ) (l : Nat → UInt8) (dbuf : Nat → UInt16) :
    Nat → Nat → Window σ → Run (Window σ × Option Nat)
  | 0, _, a => pure (a, none)
  | rest + 1, i, a => do
    let (a, tag) ← a.token S (l i) (dbuf i)
    if tag then pure (a, some i) else tokens S l dbuf rest (i + 1) a

/-- What `acch` returns, `*text_len` where it is written, and the arrays it leaves. -/
structure Outcome where
  ret : Nat
  textLen : Option Nat
  memory : Memory

/-- The body of `acch` over an automaton. -/
def search (S : Scanner σ) (l : Nat → UInt8) (dbuf : Nat → UInt16) (offset lastLit : Nat)
    (m : Memory) : Option Outcome := do
  match ← (Window.tokens S l dbuf (lastLit - offset) offset
    ⟨{ m with w := 0 }, S.root⟩).run with
  | .error m => some ⟨0, none, m⟩
  | .ok (a, none) => some ⟨0, none, a.toMemory⟩
  | .ok (a, some i) => some ⟨1, some i, a.toMemory⟩

/-- `acch`, without the keyword that it copies for the log. -/
def acch (acsm : AcsmxStruct) (l : Nat → UInt8) (dbuf : Nat → UInt16) (offset lastLit : Nat)
    (m : Memory) : Option Outcome := search (scanner acsm) l dbuf offset lastLit m

end Shutter.Acch
