import Shutter.Gunzip.Decode

/-! What the flushes of `inflate_codes` do to the tokens of a block.  Each call of `keyword_match`
gets the entries since the last one; a copy can be cut in two, and the third flush or a row of
copies without extra bits ends the block with the tokens that are left. -/

namespace Shutter.Gunzip

open Shutter.Library

/-- The contents of the two buffers, their counters, and the variables `loop` and `loop_flag` of
`inflate_codes`. -/
structure Buffers where
  litter : Nat → UInt8
  distance : Nat → Nat
  lit : Nat
  dist : Nat
  loop : Nat
  loopFlag : Nat

/-- The buffers that `keyword_match` is called with, and what is left behind the calls, if the block
goes on. -/
abbrev Stores := List (List (UInt8 × Nat)) × Option Buffers

def Stores.bind (r : Stores) (f : Buffers → Stores) : Stores :=
  match r.2 with
  | none => r
  | some b => (r.1 ++ (f b).1, (f b).2)

namespace Buffers

variable (b : Buffers)

/-- The entries below `lit`. -/
def entries : List (UInt8 × Nat) := (List.range b.lit).map fun i => (b.litter i, b.distance i)

def putLit (x : UInt8) : Buffers :=
  { b with litter := fun j => if j = b.lit then x else b.litter j, lit := b.lit + 1 }

def putDist (x : Nat) : Buffers :=
  { b with distance := fun j => if j = b.dist then x else b.distance j, dist := b.dist + 1 }

/-- Both counters are reset, up to the third time. -/
def flushed : Option Buffers :=
  if 1 < b.loop then none else some { b with lit := 0, dist := 0, loop := b.loop + 1 }

/-- A counter has a new value: a full buffer is matched. -/
def flushAt (counter : Nat) : Stores :=
  if counter = litBufsize then ([b.entries], b.flushed) else ([], some b)

/-- A round ends, with `e` extra bits in its last code. -/
def count (e : Nat) : Option Buffers :=
  if e = 0 then if 50 < b.loopFlag + 1 then none else some { b with loopFlag := b.loopFlag + 1 }
  else some { b with loopFlag := 0 }

def putLength (x : UInt8) : Stores := (b.putLit x).flushAt (b.lit + 1)

def putDistance (d : Nat) : Stores := (b.putDist d).flushAt (b.dist + 1)

/-- A token is stored. -/
def store : Token → Stores
  | .literal c => Stores.bind (((b.putLit c).putDist 0).flushAt (b.lit + 1)) fun b =>
      ([], b.count 16)
  | .copy x d e => Stores.bind (b.putLength x) fun b =>
      Stores.bind (b.putDistance d) fun b => ([], b.count e)

/-- The tokens of a block are stored. -/
def run (b : Buffers) : List Token → Stores
  | [] => ([], some b)
  | token :: tokens => Stores.bind (b.store token) fun b => b.run tokens

/-- A block: its tokens are stored, and what is in the buffers is matched. -/
def block (tokens : List Token) : Stores :=
  Stores.bind (b.run tokens) fun b => ([b.entries], some { b with loop := 0, loopFlag := 0 })

/-- The buffers that the tokens of a block go through, with the last one at its end. -/
def cuts (tokens : List Token) : List (List (UInt8 × Nat)) := (b.block tokens).1

end Buffers

/-- The calls up to the first one that finds something. -/
def through (found : List (UInt8 × Nat) → Bool) :
    List (List (UInt8 × Nat)) → List (List (UInt8 × Nat))
  | [] => []
  | c :: cs => if found c then [c] else c :: through found cs

section Through

variable {found : List (UInt8 × Nat) → Bool}

theorem through_append {cs ds : List (List (UInt8 × Nat))} (h : ∀ c ∈ cs, found c = false) :
    through found (cs ++ ds) = cs ++ through found ds := by
  induction cs with
  | nil => rfl
  | cons c cs ih =>
    obtain ⟨hc, hcs⟩ := List.forall_mem_cons.mp h
    rw [List.cons_append, through, hc, ih hcs]
    rfl

theorem through_append_found {cs ds : List (List (UInt8 × Nat))}
    (h : ∃ c ∈ cs, found c = true) :
    through found (cs ++ ds) = through found cs := by
  induction cs with
  | nil => simp at h
  | cons c cs ih =>
    rw [List.cons_append, through, through]
    by_cases hc : found c = true
    · rw [if_pos hc, if_pos hc]
    · rw [if_neg hc, if_neg hc, ih]
      obtain ⟨d, hd, hFound⟩ := h
      rcases List.mem_cons.mp hd with rfl | hd
      · exact absurd hFound hc
      · exact ⟨d, hd, hFound⟩

/-- The calls that are made find something exactly when one of all does. -/
theorem through_found {cs : List (List (UInt8 × Nat))} :
    (∃ c ∈ through found cs, found c = true) ↔ ∃ c ∈ cs, found c = true := by
  induction cs with
  | nil => rfl
  | cons c cs ih =>
    rw [through]
    split
    · simp_all
    · simp_all

end Through

/-! ### Short blocks -/

/-- The extra bits of the last code. -/
def Token.extra : Token → Nat
  | .literal _ => 16
  | .copy _ _ e => e

/-- No more than 50 tokens without extra bits come in a row, behind `n` of them. -/
def RowsFit : Nat → List Token → Prop
  | _, [] => True
  | n, token :: tokens =>
    if token.extra = 0 then n < 50 ∧ RowsFit (n + 1) tokens else RowsFit 0 tokens

instance RowsFit.decide (n : Nat) (tokens : List Token) : Decidable (RowsFit n tokens) := by
  induction tokens generalizing n with
  | nil => exact .isTrue trivial
  | cons token tokens ih => unfold RowsFit; exact inferInstance

section Short

variable {b : Buffers}

theorem Buffers.flushAt_room {counter : Nat} (h : counter ≠ litBufsize) :
    b.flushAt counter = ([], some b) := if_neg h

/-- A token behind the entries of a buffer. -/
theorem Buffers.entries_put (h : b.lit = b.dist) (x : UInt8) (d : Nat) :
    ((b.putLit x).putDist d).entries = b.entries ++ [(x, d)] := by
  unfold Buffers.entries Buffers.putLit Buffers.putDist
  rw [List.range_succ, List.map_append]
  refine congrArg₂ _ (List.map_congr_left fun i hi => ?_) (by simp [h])
  have hBelow : i < b.lit := List.mem_range.mp hi
  exact Prod.ext (if_neg (Nat.ne_of_lt hBelow)) (if_neg (h ▸ Nat.ne_of_lt hBelow))

theorem Buffers.count_fits {token : Token} {tokens : List Token}
    (h : RowsFit b.loopFlag (token :: tokens)) :
    ∃ n, b.count token.extra = some { b with loopFlag := n } ∧ RowsFit n tokens := by
  unfold RowsFit at h
  unfold Buffers.count
  split at h
  · next hZero =>
    exact ⟨b.loopFlag + 1, by rw [if_pos hZero, if_neg (by omega)], h.2⟩
  · next hBits => exact ⟨0, if_neg hBits, h⟩

/-- A token that leaves room in the buffers. -/
theorem Buffers.store_room (h : b.lit = b.dist) (hRoom : b.lit + 1 < litBufsize) (token : Token) :
    b.store token =
      ([], ((b.putLit token.pair.1).putDist token.pair.2).count token.extra) := by
  cases token with
  | literal c =>
    rw [Buffers.store, Buffers.flushAt_room (Nat.ne_of_lt hRoom)]
    rfl
  | copy x d e =>
    rw [Buffers.store, Buffers.putLength, Buffers.flushAt_room (Nat.ne_of_lt hRoom)]
    have hRoom' : (b.putLit x).dist + 1 ≠ litBufsize := Nat.ne_of_lt (h ▸ hRoom)
    show Stores.bind ((b.putLit x).putDistance d) _ = _
    rw [Buffers.putDistance, Buffers.flushAt_room hRoom']
    rfl

/-- The buffers hold as many lengths as distances, and these entries. -/
def Buffers.Holds (b : Buffers) (tokens : List (UInt8 × Nat)) : Prop :=
  b.lit = b.dist ∧ b.entries = tokens

theorem Buffers.Holds.length {tokens : List (UInt8 × Nat)} (h : b.Holds tokens) :
    b.lit = tokens.length := by
  rw [← h.2, Buffers.entries, List.length_map, List.length_range]

/-- Tokens for which there is room are stored behind the others. -/
theorem Buffers.run_short {seen : List (UInt8 × Nat)} (tokens : List Token) (h : b.Holds seen)
    (hRoom : seen.length + tokens.length < litBufsize) (hRows : RowsFit b.loopFlag tokens) :
    ∃ b', b.run tokens = ([], some b') ∧ b'.Holds (seen ++ tokens.map Token.pair) := by
  induction tokens generalizing b seen with
  | nil => exact ⟨b, rfl, by rw [List.map_nil, List.append_nil]; exact h⟩
  | cons token tokens ih =>
    have hLength := h.length
    rw [List.length_cons] at hRoom
    obtain ⟨n, hCount, hRest⟩ := Buffers.count_fits
      (b := (b.putLit token.pair.1).putDist token.pair.2) hRows
    have hStore := Buffers.store_room h.1 (by omega) token
    rw [hCount] at hStore
    have hEntries :
      Buffers.Holds { (b.putLit token.pair.1).putDist token.pair.2 with loopFlag := n }
        (seen ++ [token.pair]) :=
      ⟨congrArg (· + 1) h.1, (Buffers.entries_put h.1 _ _).trans (by rw [h.2])⟩
    obtain ⟨b', hRun, hHolds⟩ :=
      ih hEntries (by rw [List.length_append, List.length_singleton]; omega) hRest
    refine ⟨b', ?_, by rw [List.map_cons, List.append_cons]; exact hHolds⟩
    rw [Buffers.run, hStore]
    exact hRun

/-- A block for which there is room is matched once, with all tokens since the last flush. -/
theorem Buffers.block_short {seen : List (UInt8 × Nat)} {tokens : List Token} (h : b.Holds seen)
    (hRoom : seen.length + tokens.length < litBufsize) (hRows : RowsFit b.loopFlag tokens) :
    ∃ b', b.block tokens = ([seen ++ tokens.map Token.pair], some b') ∧
      b'.Holds (seen ++ tokens.map Token.pair) ∧ b'.loopFlag = 0 := by
  obtain ⟨b', hRun, hHolds⟩ := Buffers.run_short tokens h hRoom hRows
  refine ⟨{ b' with loop := 0, loopFlag := 0 }, ?_, hHolds, rfl⟩
  rw [Buffers.block, hRun, ← hHolds.2]
  rfl

end Short

end Shutter.Gunzip
