import Shutter.Acch.Correct
import Shutter.Gunzip.Flushes.Functions

/-! When the calls of `keyword_match` for the tokens of a block find a keyword of its text. -/

namespace Shutter.Gunzip

open Shutter.Library
open Shutter.Acch (expandToken Contains)
open Shutter.Acsm (Pattern)

/-- The text behind the tokens, if no distance exceeds the text before. -/
def textFrom (t : List UInt8) : List (UInt8 × Nat) → Option (List UInt8)
  | [] => some t
  | p :: tokens => (expandToken p.1 p.2.toUInt16 t).bind fun t => textFrom t tokens

/-- The references of the buffer stay inside it, and its own text contains a keyword. -/
def HasOwn (ps : List Pattern) (tokens : List (UInt8 × Nat)) : Prop :=
  ∃ text, textFrom [] tokens = some text ∧ Contains ps text

/-- The text of a block contains a keyword, behind the text `before`. -/
def HasKeyword (ps : List Pattern) (before : List UInt8) (tokens : List Token) : Prop :=
  ∃ text, textFrom before (tokens.map Token.pair) = some (before ++ text) ∧ Contains ps text

/-- The search agrees with a plain one on any buffer whose references stay inside it. -/
def Searches (ps : List Pattern) (found : List (UInt8 × Nat) → Bool) : Prop :=
  ∀ tokens text, textFrom [] tokens = some text → (found tokens = true ↔ Contains ps text)

/-- One of the calls of `keyword_match` in the block returns 1. -/
def FindsIn (env : Env) (tl td : HuftPtr) (bl bd : Nat) (s : State) : Prop :=
  ∃ c ∈ (calls ((codesBlock env tl td bl bd).final s).trace).drop (calls s.trace).length,
    env.keywordMatch c.tokens = true

/-- The buffers at the start of a block. -/
def State.buffers (s : State) : Buffers :=
  ⟨fun i => (s.litterBuf.map fun b => b.at_ i).getD 0, fun i =>
    (s.distBuf.map fun b => b.at_ i).getD 0,
    s.lit, s.dist, 0, 0⟩

section Keywords

variable {tl td : HuftPtr} {bl bd fuel : Nat} {s : State} {out : Source} {tokens : List Token}
  {ps : List Pattern}

theorem State.holding (hLit : s.litterBuf.isSome) (hDist : s.distBuf.isSome) :
    Holding s.buffers ((calls s.trace).map MatchCall.tokens) s := by
  obtain ⟨litterBuf, hLitterBuf⟩ := Option.isSome_iff_exists.mp hLit
  obtain ⟨distBuf, hDistBuf⟩ := Option.isSome_iff_exists.mp hDist
  refine ⟨?_, ?_, rfl, rfl, rfl⟩
  · simp only [State.buffers, hLitterBuf]
    rfl
  · simp only [State.buffers, hDistBuf]
    rfl

theorem findsIn_iff {env : Env} (h : Decodes tl td bl bd env.fuel s.source tokens out)
    (hFuel : s.source.input.length < env.fuel) (hCount : tokens.length < env.fuel)
    (hFlag : s.flag = 0) (hLit : s.litterBuf.isSome) (hDist : s.distBuf.isSome) :
    FindsIn env tl td bl bd s ↔ ∃ b ∈ s.buffers.cuts tokens, env.keywordMatch b = true := by
  have hMade := triple_final (codesBlock_made h hFuel hCount ⟨rfl, rfl⟩)
    ⟨State.holding hLit hDist, rfl, hFlag, rfl⟩
  have hNew := congrArg (List.drop (calls s.trace).length) hMade.tokens
  rw [List.drop_left' (by rw [List.length_map]), ← List.map_drop] at hNew
  rw [← through_found, ← hNew, FindsIn]
  simp only [List.mem_map, exists_exists_and_eq_and]

/-- The plain search. -/
def plainSearch (ps : List Pattern) (tokens : List (UInt8 × Nat)) : Bool :=
  match textFrom [] tokens with
  | some text => decide (Contains ps text)
  | none => false

theorem plainSearch_iff {b : List (UInt8 × Nat)} : plainSearch ps b = true ↔ HasOwn ps b := by
  unfold plainSearch HasOwn
  cases textFrom [] b with
  | none => simp
  | some text => simp

theorem plainSearch_searches : Searches ps (plainSearch ps) := by
  intro b text hText
  rw [plainSearch_iff, HasOwn, hText]
  simp

/-- The calls of a block find a keyword exactly when one of the buffers that its tokens go through
has a keyword of its own. -/
theorem flushes_keep_iff (ps : List Pattern) (before : List UInt8)
    (h : Decodes tl td bl bd fuel s.source tokens out) (hFlag : s.flag = 0)
    (hLit : s.litterBuf.isSome) (hDist : s.distBuf.isSome) : ∃ n, ∀ env : Env,
    n ≤ env.fuel →
      ((∀ found, Searches ps found → HasKeyword ps before tokens →
        FindsIn { env with keywordMatch := found } tl td bl bd s) ↔
      (HasKeyword ps before tokens → ∃ b ∈ s.buffers.cuts tokens, HasOwn ps b)) := by
  refine ⟨fuel + s.source.input.length + tokens.length + 1, fun env hEnough => ?_⟩
  have hFinds : ∀ found, FindsIn { env with keywordMatch := found } tl td bl bd s ↔
      ∃ b ∈ s.buffers.cuts tokens, found b = true := fun found =>
    findsIn_iff (h.mono (show fuel ≤ env.fuel by omega))
      (show s.source.input.length < env.fuel by omega) (show tokens.length < env.fuel by omega)
      hFlag hLit hDist
  constructor
  · intro hAll hKeyword
    obtain ⟨b, hb, hFound⟩ := (hFinds _).mp (hAll _ plainSearch_searches hKeyword)
    exact ⟨b, hb, plainSearch_iff.mp hFound⟩
  · intro hOwn found hSearch hKeyword
    obtain ⟨b, hb, text, hText, hContains⟩ := hOwn hKeyword
    exact (hFinds found).mpr ⟨b, hb, (hSearch b text hText).mpr hContains⟩

/-- The keyword `ab` in a block of its two letters, with room for one more token in the buffers.
The flush at the first letter cuts the keyword. -/
theorem flushes_keep_iff_ab :
    let tl : HuftPtr :=
      ⟨[[⟨16, 1, 97, 0⟩, ⟨16, 2, 98, 0⟩, ⟨16, 1, 97, 0⟩, ⟨15, 2, 0, 0⟩]], 0, 0⟩
    let s : State :=
      { State.ofBlock [] with bb := 26, bk := 8, lit := litBufsize - 1, dist := litBufsize - 1 }
    let tokens : List Token := [.literal 97, .literal 98]
    Decodes tl tl 2 2 1 s.source tokens ⟨0, 3, []⟩ ∧ HasKeyword [[97, 98]] [] tokens ∧
    (s.buffers.cuts tokens).map List.length = [litBufsize, 1] ∧ ∃ n, ∀ env : Env,
      n ≤ env.fuel →
      ((∀ found, Searches [[97, 98]] found → HasKeyword [[97, 98]] [] tokens →
        FindsIn { env with keywordMatch := found } tl tl 2 2 s) ↔
      (HasKeyword [[97, 98]] [] tokens → ∃ b ∈ s.buffers.cuts tokens,
        HasOwn [[97, 98]] b)) := by
  intro tl s tokens
  have hStop : Decodes tl tl 2 2 1 ⟨3, 5, []⟩ [] ⟨0, 3, []⟩ :=
    .stop (show code 1 tl 2 ⟨3, 5, []⟩ = some (tl.add 3, ⟨0, 3, []⟩) by decide) rfl
  have hLast : Decodes tl tl 2 2 1 ⟨13, 7, []⟩ [.literal 98] ⟨0, 3, []⟩ :=
    .literal (show code 1 tl 2 ⟨13, 7, []⟩ = some (tl.add 1, ⟨3, 5, []⟩) by decide)
      rfl hStop
  have hDecodes : Decodes tl tl 2 2 1 s.source tokens ⟨0, 3, []⟩ :=
    .literal (show code 1 tl 2 s.source = some (tl.add 2, ⟨13, 7, []⟩) by decide) rfl hLast
  have hCuts : (s.buffers.cuts tokens).map List.length = [litBufsize, 1] := by
    simp [Buffers.cuts, Buffers.block, Buffers.run, Buffers.store, Buffers.flushAt, Buffers.flushed,
      Buffers.count, Buffers.entries, Stores.bind, s, State.buffers, tokens, Buffers.putLit,
      Buffers.putDist, litBufsize]
  exact ⟨hDecodes, ⟨[97, 98], rfl, by decide⟩, hCuts,
    flushes_keep_iff [[97, 98]] [] hDecodes rfl rfl rfl⟩

end Keywords

end Shutter.Gunzip
