import Mathlib.Algebra.Order.Ring.Nat
import Mathlib.Data.List.Nodup
import Mathlib.Data.List.TakeWhile

/-! The pattern automata of `acsm.c` and `acsmx.c`.  The two files hold the same pattern list and
the same compiler; `acsm.c` also fills the array `dept`, the depth of each state, which `acsmx.c`
does not have.  A state table is a function of the state and the byte, `none` is
`ACSM_FAIL_STATE`, and a loop that reads outside the table or finds no end returns `none`. -/

namespace Shutter.Acsm

/-- An `ACSM_PATTERN`: the bytes of `patrn`, of which there are `n`. -/
abbrev Pattern := List UInt8

/-- The fields of the rows of `acsmStateTable`, by state. -/
structure StateTable where
  nextState : Nat → UInt8 → Option Nat
  failState : Nat → Nat
  matchList : Nat → List Pattern

/-- What `acsmCompile` works on: the state table, `acsmNumStates`, and `dept`. -/
structure Build extends StateTable where
  numStates : Nat
  dept : Nat → Nat

/-- An `ACSM_STRUCT`.  The state table is missing until the first compilation. -/
structure AcsmStruct where
  acsmMaxStates : Nat
  acsmNumStates : Nat
  acsmPatterns : List Pattern
  acsmStateTable : Option StateTable

/-- An `ACSMX_STRUCT`: the structure of `acsm.c`, with the depths of the states. -/
structure AcsmxStruct extends AcsmStruct where
  dept : Nat → Nat

/-- The bytes in the order of `for (i = 0; i < ALPHABET_SIZE; i++)`. -/
def alphabet : List UInt8 := (List.range 256).map UInt8.ofNat

theorem mem_alphabet (c : UInt8) : c ∈ alphabet :=
  List.mem_map.mpr ⟨c.toNat, List.mem_range.mpr c.toNat_lt, UInt8.ofNat_toNat⟩

theorem nodup_alphabet : alphabet.Nodup := by
  refine List.Nodup.map_on (fun a ha b hb h => ?_) List.nodup_range
  have h := congrArg UInt8.toNat h
  simpa [Nat.mod_eq_of_lt (List.mem_range.mp ha), Nat.mod_eq_of_lt (List.mem_range.mp hb)] using h

/-! ### Writes to the table -/

/-- `NextState[c]` of state `s` becomes `t`. -/
def Build.setNext (b : Build) (s : Nat) (c : UInt8) (t : Option Nat) : Build :=
  { b with nextState := fun s' c' => if s' = s ∧ c' = c then t else b.nextState s' c' }

/-- `FailState` of state `s` becomes `f`. -/
def Build.setFail (b : Build) (s f : Nat) : Build :=
  { b with failState := fun s' => if s' = s then f else b.failState s' }

/-- `AddMatchListEntry`: a copy of the pattern goes to the front of the state's list. -/
def Build.addMatchListEntry (b : Build) (s : Nat) (p : Pattern) : Build :=
  { b with matchList := fun s' => if s' = s then p :: b.matchList s' else b.matchList s' }

/-- One round of the second loop of `AddPatternStates`: a new state below `s` for the byte `c`. -/
def Build.addState (b : Build) (s : Nat) (c : UInt8) : Build :=
  { b.setNext s c (some (b.numStates + 1)) with
    numStates := b.numStates + 1
    dept := fun s' => if s' = b.numStates + 1 then b.dept s + 1 else b.dept s' }

/-! ### The compiler -/

/-- The first loop of `AddPatternStates`: follows the pattern through the states that exist, to
the state where it leaves them and the bytes that are left. -/
def Build.matchUp (b : Build) : Nat → Pattern → Nat × Pattern
  | state, [] => (state, [])
  | state, c :: p =>
    match b.nextState state c with
    | none => (state, c :: p)
    | some next => b.matchUp next p

/-- The second loop of `AddPatternStates`: one new state for each byte that is left. -/
def Build.addStates : Build → Nat → Pattern → Build × Nat
  | b, state, [] => (b, state)
  | b, state, c :: p => (b.addState state c).addStates (b.numStates + 1) p

/-- `AddPatternStates`. -/
def Build.addPatternStates (b : Build) (p : Pattern) : Build :=
  let (state, rest) := b.matchUp 0 p
  let (b, state) := b.addStates state rest
  b.addMatchListEntry state p

/-- State 0 takes the transitions that it lacks to itself. -/
def Build.fillRoot (b : Build) : Build :=
  { b with nextState := fun s c => if s = 0 then some ((b.nextState s c).getD 0)
                                   else b.nextState s c }

/-- The first loop of `Build_DFA`: a state below the root fails to the root and joins the
queue. -/
def Build.queueRoot : Build × List Nat → UInt8 → Option (Build × List Nat)
  | (b, queue), i => do
    let s ← b.nextState 0 i
    if s = 0 then some (b, queue) else some (b.setFail s 0, queue ++ [s])

/-- The inner `while` of `Build_DFA`: follows failures from `fs` to a state with a transition for
`i`, and returns the state behind it. -/
def Build.nextValid (b : Build) (i : UInt8) : Nat → Nat → Option Nat
  | 0, _ => none
  | fuel + 1, fs =>
    match b.nextState fs i with
    | some next => some next
    | none => b.nextValid i fuel (b.failState fs)

/-- The body of the inner `for` of `Build_DFA`, for the state `r` and the byte `i`. -/
def Build.buildByte (r : Nat) : Build × List Nat → UInt8 → Option (Build × List Nat)
  | (b, queue), i =>
    match b.nextState r i with
    | some s => do
      let next ← b.nextValid i (b.numStates + 1) (b.failState r)
      let b := b.setFail s next
      some ((b.matchList next).foldl (fun b pat => b.addMatchListEntry s pat) b, queue ++ [s])
    | none => some (b.setNext r i (b.nextState (b.failState r) i), queue)

/-- The outer `while` of `Build_DFA`, which takes the states off the queue. -/
def Build.buildStates : Nat → Build → List Nat → Option Build
  | _, b, [] => some b
  | 0, _, _ :: _ => none
  | fuel + 1, b, r :: queue => do
    let (b, queue) ← alphabet.foldlM (Build.buildByte r) (b, queue)
    Build.buildStates fuel b queue

/-- `Build_DFA` (`build_DFA` in `acsm.c`).  The loop runs once for each state on the queue. -/
def Build.buildDfa (b : Build) : Option Build := do
  let (b, queue) ← alphabet.foldlM Build.queueRoot (b, [])
  Build.buildStates b.numStates b queue

/-- The table that a compilation starts from: one state, without transitions. -/
def Build.start : Build where
  nextState := fun _ _ => none
  failState := fun _ => 0
  matchList := fun _ => []
  numStates := 0
  dept := fun _ => 0

/-- The number of states that a compilation allocates. -/
def maxStates (patterns : List Pattern) : Nat := 1 + (patterns.map List.length).sum

/-- The body of `acsmCompile` and `acsmcompile`. -/
def compile (patterns : List Pattern) : Option Build :=
  (patterns.foldl Build.addPatternStates Build.start).fillRoot.buildDfa

/-! ### The functions of `acsmx.c` -/

/-- `acsmNew`. -/
def acsmNew : AcsmStruct := ⟨0, 0, [], none⟩

/-- `acsmAddPattern`: the pattern goes to the front of the list. -/
def acsmAddPattern (p : AcsmStruct) (pat : Pattern) : AcsmStruct :=
  { p with acsmPatterns := pat :: p.acsmPatterns }

/-- The bytes of a string literal. -/
def ascii (text : List Char) : List UInt8 := text.map fun c => c.toNat.toUInt8

/-- The bytes of a C string in a buffer: those before the first NUL. -/
def cstr (s : List UInt8) : List UInt8 := s.takeWhile (· ≠ 0)

theorem cstr_eq {s : List UInt8} (h : 0 ∉ s) : cstr s = s :=
  List.takeWhile_eq_self_iff.mpr fun _ hc => decide_eq_true (ne_of_mem_of_not_mem hc h)

theorem cstr_block {own : List UInt8} (hOwn : 0 ∉ own) (behind : List UInt8) :
    cstr (own ++ 0 :: behind) = own := by
  unfold cstr
  rw [List.takeWhile_append_of_pos]
  · simp
  · intro c hc
    simp only [decide_eq_true_eq]
    rintro rfl
    exact hOwn hc

/-- The pattern list without the first entry that `strcmp` finds equal to `pat`. -/
def unlink (pat : Pattern) (patterns : List Pattern) : List Pattern :=
  patterns.eraseP fun p => cstr pat = cstr p

/-- `acsmDelPattern`, which reads `patrn` of the head of the list before any test. -/
def acsmDelPattern (p : AcsmStruct) (pat : Pattern) : Option AcsmStruct :=
  match p.acsmPatterns with
  | [] => none
  | _ :: _ => some { p with acsmPatterns := unlink pat p.acsmPatterns }

/-- `acsmCompile`. -/
def acsmCompile (acsm : AcsmStruct) : Option AcsmStruct := do
  let b ← compile acsm.acsmPatterns
  some { acsm with acsmMaxStates := maxStates acsm.acsmPatterns, acsmNumStates := b.numStates,
                   acsmStateTable := some b.toStateTable }

/-- One round of the search loop: the next state and its list of matches. -/
def AcsmStruct.visit (acsm : AcsmStruct) (state : Nat) (c : UInt8) :
    Option (Nat × List Pattern) := do
  let table ← acsm.acsmStateTable
  let state ← table.nextState state c
  some (state, table.matchList state)

/-- `acsmSearch`: the number of matches in the text `tx`. -/
def acsmSearch (acsm : AcsmStruct) (tx : List UInt8) : Option Nat := do
  let (_, nfound) ← tx.foldlM (fun (state, nfound) c => do
    let (state, mlist) ← acsm.visit state c
    some (state, nfound + mlist.length)) (0, 0)
  some nfound

/-- `acsmSearch_kw`: the patterns that match, in the order in which they are stored. -/
def acsmSearchKw (acsm : AcsmStruct) (tx : List UInt8) : Option (List Pattern) := do
  let (_, keywords) ← tx.foldlM (fun (state, keywords) c => do
    let (state, mlist) ← acsm.visit state c
    some (state, keywords ++ mlist)) (0, [])
  some keywords

/-- `acsmSearch_offset`: the offsets of the patterns that match, in the order in which they are
stored.  `i` is `T - Tx`, and `index` is computed in `int`. -/
def acsmSearchOffset (acsm : AcsmStruct) (tx : List UInt8) : Option (List Int) := do
  let (_, _, offsetlist) ← tx.foldlM
    (fun ((state, i, offsetlist) : Nat × Nat × List Int) c => do
    let (state, mlist) ← acsm.visit state c
    some (state, i + 1, offsetlist ++ mlist.map fun p => (i : Int) - (p.length : Int) + 1))
    (0, 0, [])
  some offsetlist

/-! ### The functions of `acsm.c` -/

/-- `acsmnew`. -/
def acsmnew : AcsmxStruct := ⟨acsmNew, fun _ => 0⟩

/-- `acsmaddPattern`. -/
def acsmaddPattern (p : AcsmxStruct) (pat : Pattern) : AcsmxStruct :=
  { p with acsmPatterns := pat :: p.acsmPatterns }

/-- `acsmdelPattern`, which reads `patrn` of the head of the list before any test. -/
def acsmdelPattern (p : AcsmxStruct) (pat : Pattern) : Option AcsmxStruct :=
  match p.acsmPatterns with
  | [] => none
  | _ :: _ => some { p with acsmPatterns := unlink pat p.acsmPatterns }

/-- `acsmcompile`. -/
def acsmcompile (acsm : AcsmxStruct) : Option AcsmxStruct := do
  let b ← compile acsm.acsmPatterns
  some { acsm with acsmMaxStates := maxStates acsm.acsmPatterns, acsmNumStates := b.numStates,
                   acsmStateTable := some b.toStateTable, dept := b.dept }

end Shutter.Acsm
