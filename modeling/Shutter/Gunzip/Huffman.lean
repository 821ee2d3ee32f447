import Mathlib.Algebra.Order.Ring.Nat

/-! The decoding tables of `copeungz.c`: `struct huft`, `huft_build`, and the constants that it is
called with. -/

namespace Shutter.Gunzip

/-- `struct huft`.  Of the union `v`, the member that is not in use is 0, and a pointer to the next
table is its place among the tables of the same call of `huft_build`. -/
structure Huft where
  e : Nat
  b : Nat
  n : Nat
  t : Nat
  deriving DecidableEq

/-- The entry of a code that no value has. -/
def Huft.invalid : Huft := ⟨99, 1, 0, 0⟩

/-- The tables of a call of `huft_build`, in the order of their allocation. -/
abbrev Tables := List (List Huft)

/-- A `struct huft *`. -/
structure HuftPtr where
  tables : Tables
  table : Nat
  index : Nat
  deriving DecidableEq

/-- The entry that the pointer points to. -/
def HuftPtr.get (p : HuftPtr) : Huft :=
  ((p.tables[p.table]?.getD [])[p.index]?).getD Huft.invalid

def HuftPtr.add (p : HuftPtr) (i : Nat) : HuftPtr := { p with index := p.index + i }

/-- `t->v.t`. -/
def HuftPtr.next (p : HuftPtr) : HuftPtr := ⟨p.tables, p.get.t, 0⟩

def bmax : Nat := 16

/-- `c`: the number of codes of each length. -/
def counts (b : List Nat) : List Nat :=
  b.foldl (fun c k => c.modify k (· + 1)) (List.replicate (bmax + 1) 0)

/-- The check of the lengths from `j` up to the maximum `g`: `y` is what is left over of the codes,
unless there are more codes than bits. -/
def leftOver (c : List Nat) : List Nat → Int → Option Int
  | [], y => some y
  | [k], y => if y - c.getD k 0 < 0 then none else some (y - c.getD k 0)
  | k :: ks, y =>
    if y - c.getD k 0 < 0 then none else leftOver c ks ((y - c.getD k 0) * 2)

/-- `v`, up to the `n` entries that are looked at: the values in the order of the lengths of their
codes, and what is in the array behind them. -/
def values (b : List Nat) (stale : Nat) : List Nat :=
  ((List.range' 1 bmax).flatMap fun k => (List.range b.length).filter fun i => b[i]? = some k) ++
    List.replicate (b.count 0) stale

/-- The loop that tries table sizes above `k - w` bits: `j` and the patterns left `f`, for `a + 1`
codes of length `k` that are left. -/
def tryTables (c : List Nat) (z : Nat) : Nat → Nat → Nat → Nat → Nat
  | 0, j, _, _ => j
  | fuel + 1, j, f, k =>
    if j + 1 < z then
      if 2 * f ≤ c.getD (k + 1) 0 then j + 1
      else tryTables c z fuel (j + 1) (2 * f - c.getD (k + 1) 0) (k + 1)
    else j + 1

/-- The number of bits of a new table, behind `w` bits and for `a` further codes of length `k`. -/
def tableBits (c : List Nat) (g l w k a : Nat) : Nat :=
  let z := min (g - w) l
  let j := k - w
  if 2 ^ j > a + 1 then tryTables c z bmax j (2 ^ j - (a + 1)) k else j

/-- The variables of the main loop of `huft_build`.  `levels` is `h + 1`, so that the bits before
the current table are `w = l * (levels - 1)`; `u` and `x` are the stacks of tables and patterns. -/
structure Building where
  i : Nat
  p : List Nat
  levels : Nat
  u : List Nat
  x : List Nat
  tables : Tables

/-- The bits before the current table. -/
def Building.w (l : Nat) (s : Building) : Nat := l * (s.levels - 1)

/-- The loop that makes tables up to the level that a code of length `k` needs. -/
def makeTables (c : List Nat) (g l k a : Nat) : Nat → Building → Building
  | 0, s => s
  | fuel + 1, s =>
    if l * s.levels < k then
      let w := l * s.levels
      let j := tableBits c g l w k a
      let q := s.tables.length
      let tables := s.tables ++ [List.replicate (2 ^ j) ⟨0, 0, 0, 0⟩]
      let tables :=
        if s.levels = 0 then tables
        else tables.modify (s.u[s.levels - 1]?.getD 0)
          fun table => table.set (s.i / 2 ^ (w - l)) ⟨16 + j, l, 0, q⟩
      makeTables c g l k a fuel
        { s with levels := s.levels + 1, u := s.u.set s.levels q,
                 x := if s.levels = 0 then s.x else s.x.set s.levels s.i, tables }
    else s

/-- The table entry for the value at `p`. -/
def entry (s : Nat) (d e : Option (List Nat)) (b : Nat) : List Nat → Option Huft
  | [] => some ⟨99, b, 0, 0⟩
  | v :: _ =>
    if v < s then some ⟨if v < 256 then 16 else 15, b, v, 0⟩
    else
      match e with
      | none => none
      | some e =>
        if v - s > 30 then none
        else some ⟨e[v - s]?.getD 0, b, ((d.getD [])[v - s]?).getD 0, 0⟩

/-- The loop that fills the entries `j`, `j + f`, … of a table with `r`. -/
def fill (r : Huft) (f : Nat) : Nat → Nat → List Huft → List Huft
  | 0, _, q => q
  | fuel + 1, j, q => if j < q.length then fill r f fuel (j + f) (q.set j r) else q

/-- The loop that increments the `k`-bit code backwards. -/
def increment : Nat → Nat → Nat
  | 0, i => i
  | k + 1, i => if i.testBit k then increment k (i - 2 ^ k) else i + 2 ^ k

/-- The loop that leaves the tables that are finished. -/
def backUp (l : Nat) : Nat → Building → Building
  | 0, s => s
  | fuel + 1, s =>
    if s.i % 2 ^ s.w l ≠ s.x[s.levels - 1]?.getD 0 then
      backUp l fuel { s with levels := s.levels - 1 }
    else s

/-- The body of the main loop, for one code of length `k` and `a` further ones. -/
def addCode (c : List Nat) (g l n : Nat) (d e : Option (List Nat)) (k a : Nat) (s : Building) :
    Option Building := do
  let s := makeTables c g l k a bmax s
  let w := s.w l
  let r ← entry n d e (k - w) s.p
  let tables := s.tables.modify (s.u[s.levels - 1]?.getD 0)
    fun q => fill r (2 ^ (k - w)) q.length (s.i / 2 ^ w) q
  some (backUp l bmax { s with p := s.p.tail, i := increment k s.i, tables })

/-- The codes of length `k`. -/
def addCodes (c : List Nat) (g l n : Nat) (d e : Option (List Nat)) (k : Nat) :
    Nat → Building → Option Building
  | 0, s => some s
  | a + 1, s => do addCodes c g l n d e k a (← addCode c g l n d e k a s)

/-- The main loop. -/
def addLengths (c : List Nat) (g l n : Nat) (d e : Option (List Nat)) :
    List Nat → Building → Option Building
  | [], s => some s
  | k :: ks, s => do addLengths c g l n d e ks (← addCodes c g l n d e k (c.getD k 0) s)

/-- What a call of `huft_build` gives: the return value, what `*t` is set to, if it is, and
`*m`. -/
structure Built where
  code : Nat
  t : Option (Option HuftPtr)
  m : Nat

/-- `huft_build`, for the lengths `b`, the number `s` of simple values, the tables `d` and `e` of
the others, and the number `m` of bits to look up at most.  Memory does not run out.  At the return
of 2 for a value that `d` and `e` do not have, `*t` has been set, to tables without their last
entries: no caller looks at it. -/
def huftBuild (stale : Nat) (b : List Nat) (s : Nat) (d e : Option (List Nat)) (m : Nat) : Built :=
  let c := counts b
  if c.getD 0 0 = b.length then ⟨0, some none, 0⟩
  else
    let j := ((List.range' 1 bmax).find? fun j => c.getD j 0 ≠ 0).getD (bmax + 1)
    let g := ((List.range' 1 bmax).reverse.find? fun i => c.getD i 0 ≠ 0).getD 0
    let l := min (max m j) g
    match leftOver c (List.range' j (g + 1 - j)) (2 ^ j) with
    | none => ⟨2, none, l⟩
    | some y =>
      let c := c.modify g (· + y.toNat)
      let start : Building :=
        ⟨0, values b stale, 0, List.replicate bmax 0, List.replicate (bmax + 1) 0, []⟩
      match addLengths c g l s d e (List.range' j (g + 1 - j)) start with
      | none => ⟨2, none, l⟩
      | some built =>
        ⟨if y ≠ 0 ∧ g ≠ 1 then 1 else 0, some (some ⟨built.tables, 0, 0⟩), l⟩

/-- `border`: the order of the lengths of the bit length codes. -/
def border : List Nat := [16, 17, 18, 0, 8, 7, 9, 6, 10, 5, 11, 4, 12, 3, 13, 2, 14, 1, 15]

/-- `cplens`. -/
def cplens : List Nat :=
  [3, 4, 5, 6, 7, 8, 9, 10, 11, 13, 15, 17, 19, 23, 27, 31,
   35, 43, 51, 59, 67, 83, 99, 115, 131, 163, 195, 227, 258, 0, 0]

/-- `cplext`, where 99 is invalid. -/
def cplext : List Nat :=
  [0, 0, 0, 0, 0, 0, 0, 0, 1, 1, 1, 1, 2, 2, 2, 2,
   3, 3, 3, 3, 4, 4, 4, 4, 5, 5, 5, 5, 0, 99, 99]

/-- `cpdist`. -/
def cpdist : List Nat :=
  [1, 2, 3, 4, 5, 7, 9, 13, 17, 25, 33, 49, 65, 97, 129, 193,
   257, 385, 513, 769, 1025, 1537, 2049, 3073, 4097, 6145,
   8193, 12289, 16385, 24577]

/-- `cpdext`. -/
def cpdext : List Nat :=
  [0, 0, 0, 0, 1, 1, 2, 2, 3, 3, 4, 4, 5, 5, 6, 6,
   7, 7, 8, 8, 9, 9, 10, 10, 11, 11,
   12, 12, 13, 13]

def lbits : Nat := 9

def dbits : Nat := 6

end Shutter.Gunzip
