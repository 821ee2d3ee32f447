import Shutter.Acch.Correct

/-! The keywords of the down stream: `down_string_match.c`, and `keyword_match` of `acsm.c`.  The
automaton `M` searches, and `N` is its spare. -/

namespace Shutter.Rules

open Shutter.Acsm Shutter.Acch

/-- The automata `M` and `N`. -/
structure Down where
  m : AcsmxStruct
  n : AcsmxStruct

/-- `down_ac`, with an empty table in the database. -/
def downAc : Down := ⟨acsmnew, acsmnew⟩

/-- The end of `add_str` and `del_str`: `M` takes the list of `N`, `N` is compiled, and the two
swap. -/
def Down.publish (d : Down) : Option Down := do
  let n ← acsmcompile d.n
  some ⟨n, { d.m with acsmPatterns := d.n.acsmPatterns }⟩

/-- `add_str`. -/
def addStr (d : Down) (s : List UInt8) : Option Down :=
  Down.publish ⟨d.m, acsmaddPattern d.n (cstr s)⟩

/-- `del_str`. -/
def delStr (d : Down) (s : List UInt8) : Option Down := do
  let n ← acsmdelPattern d.n (cstr s)
  Down.publish ⟨d.m, n⟩

/-- `valueToHexCh`. -/
def valueToHexCh (value : UInt8) : UInt8 := if value ≤ 9 then value + 48 else value - 10 + 97

/-- The two digits of a byte. -/
def hexByte (b : UInt8) : List UInt8 :=
  [valueToHexCh ((b &&& 0xF0) >>> 4), valueToHexCh (b &&& 0x0F)]

/-- `strtounicode`: the escaped string, or nothing where it returns 1.  A byte that is not ASCII
takes the two bytes behind it, and the end of the string counts as bytes that do not continue. -/
def strtounicode : List UInt8 → Option (List UInt8)
  | [] => some []
  | b₁ :: src =>
    if b₁ &&& 0x80 = 0 then do
      let output ← strtounicode src
      some (b₁ :: output)
    else match src with
      | b₂ :: b₃ :: src =>
        if b₂ &&& 0xC0 ≠ 0x80 ∨ b₃ &&& 0xC0 ≠ 0x80 then none
        else do
          let output ← strtounicode src
          some (92 :: 117 :: hexByte ((b₁ <<< 4) + ((b₂ >>> 2) &&& 0x0F)) ++
            hexByte ((b₂ <<< 6) + (b₃ &&& 0x3F)) ++ output)
      | _ => none

/-- `add_str` of a keyword and of its escaped form. -/
def addKeyword (d : Down) (s : List UInt8) : Option Down := do
  let d ← addStr d s
  match strtounicode s with
  | some key => addStr d key
  | none => some d

/-- `keyword_match`, without its log.  It returns what `acch` returns over `M`. -/
def keywordMatch (d : Down) (l : Nat → UInt8) (dbuf : Nat → UInt16) (len : Nat)
    (memory : Memory) :
    Option Nat := do
  let o ← acch d.m l dbuf 0 len memory
  some o.ret

/-! ### The shared list -/

/-- `M` and `N` share a list, and `M` is compiled from it. -/
structure Down.Published (d : Down) (ps : List Pattern) : Prop where
  active : d.m.acsmPatterns = ps
  spare : d.n.acsmPatterns = ps
  compiled : ∃ b, compile ps = some b ∧ Holds d.m b

variable {d d' : Down} {ps : List Pattern} {s : List UInt8}

/-- Whatever `M` was, a call leaves the automaton of the list. -/
theorem Down.publish_published (hSpare : d.n.acsmPatterns = ps) :
    ∃ d', d.publish = some d' ∧ d'.Published ps := by
  obtain ⟨b, word, hCompile, -⟩ := compile_compiled ps
  refine ⟨⟨⟨⟨maxStates ps, b.numStates, ps, some b.toStateTable⟩, b.dept⟩,
    { d.m with acsmPatterns := d.n.acsmPatterns }⟩, ?_, rfl, hSpare, b, hCompile, rfl, rfl⟩
  rw [Down.publish, acsmcompile, hSpare, hCompile]
  rfl

theorem addStr_published (hSpare : d.n.acsmPatterns = ps) (hs : 0 ∉ s) :
    ∃ d', addStr d s = some d' ∧ d'.Published (s :: ps) :=
  Down.publish_published (by simp [acsmaddPattern, hSpare, cstr_eq hs])

theorem delStr_published (hSpare : d.n.acsmPatterns = ps) (hNonempty : ps ≠ [])
    (hKeywords : ∀ p ∈ ps, 0 ∉ p) (hs : 0 ∉ s) :
    ∃ d', delStr d s = some d' ∧ d'.Published (ps.erase s) := by
  have hDel : acsmdelPattern d.n (cstr s) =
      some { d.n with acsmPatterns := ps.erase s } := by
    obtain ⟨p, ps, rfl⟩ := List.exists_cons_of_ne_nil hNonempty
    rw [acsmdelPattern, hSpare, cstr_eq hs, unlink_eq_erase hs hKeywords]
  rw [delStr, hDel]
  exact Down.publish_published rfl

theorem zero_not_mem_strtounicode {s key : List UInt8} (hs : 0 ∉ s)
    (hKey : strtounicode s = some key) : 0 ∉ key := by
  have hBytes : ∀ b ∈ alphabet, 0 ∉ hexByte b := by decide +kernel
  have hHex : ∀ b, 0 ∉ hexByte b := fun b => hBytes b (mem_alphabet b)
  fun_induction strtounicode s generalizing key with
  | case1 => exact Option.some.inj hKey ▸ hs
  | case2 b₁ src hAscii ih =>
    obtain ⟨output, hOutput, hRes⟩ := Option.bind_eq_some_iff.mp hKey
    obtain rfl := Option.some.inj hRes
    simp only [List.mem_cons, not_or] at hs ⊢
    exact ⟨hs.1, ih hs.2 hOutput⟩
  | case3 => cases hKey
  | case4 b₁ hAscii b₂ b₃ src hCut ih =>
    obtain ⟨output, hOutput, hRes⟩ := Option.bind_eq_some_iff.mp hKey
    obtain rfl := Option.some.inj hRes
    simp only [List.mem_cons, not_or] at hs
    simp [hHex, ih hs.2.2.2 hOutput]
  | case5 => cases hKey

theorem addKeyword_published (hSpare : d.n.acsmPatterns = ps) (hs : 0 ∉ s) :
    ∃ d', addKeyword d s = some d' ∧
      d'.Published ((strtounicode s).toList ++ s :: ps) := by
  obtain ⟨d₁, hRun₁, h₁⟩ := addStr_published hSpare hs
  rw [addKeyword, hRun₁]
  cases hKey : strtounicode s with
  | none => exact ⟨d₁, rfl, h₁⟩
  | some key => exact addStr_published h₁.spare (zero_not_mem_strtounicode hs hKey)

theorem keywordMatch_congr (h : d.Published ps) (h' : d'.Published ps) (l : Nat → UInt8)
    (dbuf : Nat → UInt16) (len : Nat) (memory : Memory) :
    keywordMatch d l dbuf len memory = keywordMatch d' l dbuf len memory := by
  obtain ⟨b, hCompile, hTable, hDept⟩ := h.compiled
  obtain ⟨b', hCompile', hTable', hDept'⟩ := h'.compiled
  obtain rfl := Option.some.inj (hCompile.symm.trans hCompile')
  have hScanner : scanner d.m = scanner d'.m := by
    unfold scanner
    congr 1
    · funext state c
      simp only [scanAC, fsm, hTable, hTable', hDept, hDept']
    · simp only [hTable, hTable', hDept, hDept']
  rw [keywordMatch, keywordMatch, acch, acch, hScanner]

/-- `keyword_match` searches for the patterns of the list. -/
theorem Down.Published.keywordMatch (h : d.Published ps) (hNonempty : ∀ p ∈ ps, p ≠ [])
    (l : Nat → UInt8) (dbuf : Nat → UInt16) (len : Nat) (memory : Memory) :
    keywordMatch d l dbuf len memory =
      (search (textScanner ps) l dbuf 0 len memory).map Outcome.ret := by
  obtain ⟨b, hCompile, hHolds⟩ := h.compiled
  obtain ⟨b', word, hCompile', hCompiled⟩ := compile_compiled ps
  obtain rfl := Option.some.inj (hCompile.symm.trans hCompile')
  rw [Rules.keywordMatch, acch, (hHolds.simulates hCompiled hNonempty).search]
  cases search (textScanner ps) l dbuf 0 len memory <;> rfl

end Shutter.Rules
