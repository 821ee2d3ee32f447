import Shutter.Gunzip.Huffman
import Shutter.Stream.Head

/-! What the functions of `copeungz.c` work on: the fields of a `data_head`, the globals, and the
macros `NEEDBITS` and `DUMPBITS`.  A function is a program that can return before its end. -/

namespace Shutter.Gunzip

open Shutter.Stream (Segment)

/-- `struct head`: what a call of `inflate` leaves for the next one. -/
structure Head where
  bb : Nat
  bk : Nat
  t : Nat
  e : Nat
  flag : Nat
  j : Nat
  nb : Nat
  nl : Nat
  nd : Nat
  ll : Nat → Nat
  bl : Nat
  bd : Nat
  ee : Nat
  n : Nat
  tl : Option HuftPtr
  td : Option HuftPtr
  tt : Option HuftPtr

/-- `litter_buf` or `dist_buf`: the address that `malloc` returned, and what is there. -/
structure Buffer (α : Type) where
  address : Nat
  at_ : Nat → α

def Buffer.set {α : Type} (b : Buffer α) (i : Nat) (x : α) : Buffer α :=
  { b with at_ := fun j => if j = i then x else b.at_ j }

/-- The part of a `data_head` that belongs to `process_gzip_data`.  `current_block` is an index
into the down-stream list. -/
structure Gzip where
  head : Head
  currentBlock : Option Nat
  httpFlag : Bool
  textFlag : Bool
  gzipFlag : Bool
  uchunkFlag : Bool
  chunkSize : Int
  headSize : Int
  length : Nat
  lit : Nat
  dist : Nat
  litterBuf : Option (Buffer UInt8)
  distBuf : Option (Buffer Nat)

/-- A call of `keyword_match`: the entries of the two buffers below `lit`, and the two counters. -/
structure MatchCall where
  tokens : List (UInt8 × Nat)
  lit : Nat
  dist : Nat
  deriving DecidableEq

/-- What the inflater does, as far as it concerns the tokens: it stores a literal, the length of a
copy or the distance of a copy, when `lit` and `dist` have these values; it calls `keyword_match`;
or it runs out of input at a flag. -/
inductive Event where
  | literal (c : UInt8) (lit dist : Nat)
  | length (x : UInt8) (lit dist : Nat)
  | distance (d lit dist : Nat)
  | called (c : MatchCall)
  | starved (flag : Nat)
  deriving DecidableEq

/-- The head that is processed, the globals, and what the functions have done so far: the bytes
that they have taken from `inbuf`, and the events. -/
structure State extends Gzip where
  down : List Segment
  gkState : Int
  inbuf : List UInt8
  insize : Nat
  inptr : Nat
  empty : Bool
  flag : Nat
  bb : Nat
  bk : Nat
  taken : List UInt8
  trace : List Event

/-- The calls of `keyword_match`. -/
def calls (trace : List Event) : List MatchCall :=
  trace.filterMap fun
    | .called c => some c
    | _ => none

/-- The ways to leave a function before its end.  A loop can also turn round more often than the
bound that it is given. -/
inductive Exit where
  | ret (r : Nat)
  | spin
  deriving DecidableEq

abbrev Code := EStateM Exit State

/-- What the inflater uses of the rest of the program: the automaton of `keyword_match`, the value
`GK_STATE_BLOCK`, `waitbuf`, the value of a variable that is not initialised, and a bound on the
rounds of its loops. -/
structure Env where
  keywordMatch : List (UInt8 × Nat) → Bool
  gkStateBlock : Int
  waitbuf : Code Unit
  stale : Nat
  fuel : Nat

/-- `return r`. -/
def ret {α : Type} (r : Nat) : Code α := throw (.ret r)

/-- The call of a function: its `return` ends it, and not the caller. -/
def call (body : Code Nat) : Code Nat := fun s =>
  match body s with
  | .ok r s => .ok r s
  | .error (.ret r) s => .ok r s
  | .error .spin s => .error .spin s

/-- `if (p) x`, with a value for the case that `p` fails. -/
def onlyIf {α : Type} (p : Prop) [Decidable p] (otherwise : α) (x : Code α) : Code α :=
  if p then x else return otherwise

def modifyHead (f : Head → Head) : Code Unit := modify fun s => { s with head := f s.head }

def setFlag (flag : Nat) : Code Unit := modify fun s => { s with flag }

def record (e : Event) : Code Unit := modify fun s => { s with trace := s.trace ++ [e] }

/-- A part of a token, with the counters before it is stored. -/
def recordToken (e : Nat → Nat → Event) : Code Unit :=
  modify fun s => { s with trace := s.trace ++ [e s.lit s.dist] }

/-- `mask_bits[n]` of the bit buffer. -/
def bits (n : Nat) : Code Nat := do return (← get).bb % 2 ^ n

/-- `NEEDBITS`, from a local variable for each of the globals. -/
def needBits (env : Env) (n : Nat) : Nat → Code Unit
  | 0 => throw .spin
  | fuel + 1 => do
    let s ← get
    if s.bk < n then
      if s.inptr < s.insize then
        let c := s.inbuf[s.inptr]?.getD 0
        set { s with bb := s.bb ||| (c.toNat <<< s.bk), bk := s.bk + 8, inptr := s.inptr + 1,
                     taken := s.taken ++ [c] }
        needBits env n fuel
      else
        modifyHead fun h => { h with flag := s.flag, bb := s.bb, bk := s.bk }
        env.waitbuf
        onlyIf ((← get).empty = true) () do
          modify fun s => { s with empty := false }
          record (.starved s.flag)
          ret 0
        needBits env n fuel
    else return ()

/-- `DUMPBITS`.  The number of bits in the buffer is an `unsigned`. -/
def dumpBits (n : Nat) : Code Unit :=
  modify fun s => { s with bb := s.bb >>> n, bk := (s.bk + 2 ^ 32 - n) % 2 ^ 32 }

end Shutter.Gunzip
