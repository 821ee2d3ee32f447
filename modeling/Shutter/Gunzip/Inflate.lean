import Shutter.Gunzip.State

/-! The inflater of `copeungz.c`.  The global `flag` is the point where a function goes on that has
run out of input before.  The local copies of the bit buffer are the globals, which get the
same values wherever they are read again; the window of `inflate_stored`, which is not read, is left
out. -/

namespace Shutter.Gunzip

variable (env : Env)

def litBufsize : Nat := 0x8000

/-- `keyword_match`, on the entries of the buffers below `lit`. -/
def keywordMatch : Code Bool := do
  let s ← get
  let tokens := (List.range s.lit).map fun i =>
    ((s.litterBuf.map fun b => b.at_ i).getD 0, (s.distBuf.map fun b => b.at_ i).getD 0)
  record (.called ⟨tokens, s.lit, s.dist⟩)
  return env.keywordMatch tokens

/-- A part of a function that runs from its start and at its own flag. -/
def fromFlag {α : Type} (flag : Nat) (otherwise : α) (body : Code α) : Code α := do
  let s ← get
  onlyIf (s.flag = 0 ∨ s.flag = flag) otherwise body

/-- The variables `e`, `t`, `loop_flag` and `loop` of `inflate_codes`. -/
structure Codes where
  e : Nat
  t : Option HuftPtr
  loopFlag : Nat
  loop : Nat

/-- The entry that `t` points to. -/
def Codes.entry (v : Codes) : Huft := (v.t.map HuftPtr.get).getD Huft.invalid

/-- `e = (t = …)->e`. -/
def Codes.goto (v : Codes) (t : Option HuftPtr) : Codes :=
  { v with t, e := (t.map HuftPtr.get).getD Huft.invalid |>.e }

/-- `e = (t = t->v.t + i)->e`. -/
def Codes.descend (v : Codes) (i : Nat) : Codes := v.goto (v.t.map fun t => t.next.add i)

/-- `litter_buf[lit++] = x`. -/
def putLit (x : UInt8) : Code Unit :=
  modify fun s => { s with litterBuf := s.litterBuf.map fun b => b.set s.lit x, lit := s.lit + 1 }

/-- `dist_buf[dist++] = x`. -/
def putDist (x : Nat) : Code Unit :=
  modify fun s => { s with distBuf := s.distBuf.map fun b => b.set s.dist x, dist := s.dist + 1 }

/-- What `inflate_codes` does when one of the buffers is full. -/
def flush (v : Codes) : Code Codes := do
  if ← keywordMatch env then
    modify fun s => { s with gkState := env.gkStateBlock, head := { s.head with tt := none } }
    ret 1
  else
    modify fun s => { s with lit := 0, dist := 0, length := 0 }
    if 1 < v.loop then
      modifyHead fun h => { h with tt := none }
      ret 1
    else return { v with loop := v.loop + 1 }

/-- The loop through the tables of the literal and length codes. -/
def descendLit : Nat → Codes → Code Codes
  | 0, _ => throw .spin
  | fuel + 1, v =>
    if v.e = 99 then ret 1
    else do
      dumpBits v.entry.b
      let e := if (← get).flag = 0 then v.e - 16 else v.e
      setFlag 10
      modifyHead fun h => { h with ee := e, tt := v.t }
      needBits env e env.fuel
      if (← get).head.tt = none then ret 1
      else
        setFlag 0
        let v := v.descend (← bits e)
        onlyIf (16 < v.e) v (descendLit fuel v)

/-- The loop through the tables of the distance codes. -/
def descendDist : Nat → Codes → Code Codes
  | 0, _ => throw .spin
  | fuel + 1, v =>
    if v.e = 99 then ret 1
    else do
      let e ← onlyIf ((← get).flag = 0) v.e do
        dumpBits v.entry.b
        return v.e - 16
      modifyHead fun h => { h with ee := e, tt := v.t }
      setFlag 13
      needBits env e env.fuel
      setFlag 0
      let v := v.descend (← bits e)
      onlyIf (16 < v.e) v (descendDist fuel v)

/-- The first look at a code. -/
def firstBits (bl : Nat) (v : Codes) : Code Unit := fromFlag 9 () do
  setFlag 9
  modifyHead fun h => { h with ee := v.e }
  needBits env bl env.fuel
  setFlag 0

/-- The literal or length code. -/
def litCode (tl : HuftPtr) (bl : Nat) (v : Codes) : Code Codes := fromFlag 10 v do
  let flag := (← get).flag
  let b ← bits bl
  let v := if flag = 10 then v else v.goto (some (tl.add b))
  let v ← onlyIf (flag = 10 ∨ 16 < v.e) v (descendLit env env.fuel v)
  dumpBits v.entry.b
  return v

/-- A literal. -/
def literal (v : Codes) : Code Codes := do
  modifyHead fun h => { h with ee := v.e }
  if v.t = none then ret 1
  else
    recordToken (.literal v.entry.n.toUInt8)
    putLit v.entry.n.toUInt8
    putDist 0
    onlyIf ((← get).lit = litBufsize) v (flush env v)

/-- `current_block->len`. -/
def State.blockLen (s : State) : Nat :=
  ((s.currentBlock.bind fun c => s.down[c]?).map List.length).getD 0

/-- The value of an `int` or a difference as an `unsigned`. -/
def toUnsigned (x : Int) : Nat := (x % 2 ^ 32).toNat

/-- The value of an `unsigned` or a `long` as an `int`. -/
def toInt (x : Int) : Int := (x + 2 ^ 31) % 2 ^ 32 - 2 ^ 31

/-- The end of a block. -/
def endOfBlock : Code Unit := do
  let s ← get
  onlyIf (toUnsigned s.chunkSize = s.insize) () do
    modify fun s => { s with chunkSize := 0, inptr := s.insize, bk := 0, bb := 0 }
  modifyHead fun h => { h with flag := 0, tt := none, tl := none, td := none }
  let s ← get
  onlyIf (s.chunkSize = 0 ∧ toUnsigned (s.blockLen - s.headSize - s.insize) = 7) () do
    modify fun s => { s with httpFlag := false, textFlag := false }

/-- The length of a copy. -/
def copyLength (v : Codes) : Code Codes := fromFlag 11 v do
  modifyHead fun h => { h with ee := v.e, tt := v.t }
  setFlag 11
  needBits env v.e env.fuel
  setFlag 0
  if (← get).head.tt = none then ret 1
  else
    let x := (v.entry.n + (← bits v.e) + 2 ^ 16 - 3).toUInt8
    recordToken (.length x)
    putLit x
    let v ← onlyIf ((← get).lit = litBufsize) v (flush env v)
    dumpBits v.e
    return v

/-- The first look at the distance code. -/
def distBits (bd : Nat) (v : Codes) : Code Unit := fromFlag 12 () do
  modifyHead fun h => { h with ee := v.e, tt := v.t }
  setFlag 12
  needBits env bd env.fuel
  setFlag 0

/-- The distance code. -/
def distCode (td : HuftPtr) (bd : Nat) (v : Codes) : Code Codes := fromFlag 13 v do
  let flag := (← get).flag
  let b ← bits bd
  let v := if flag = 13 then v else v.goto (some (td.add b))
  let v ← onlyIf (flag = 13 ∨ 16 < v.e) v (descendDist env env.fuel v)
  dumpBits v.entry.b
  modifyHead fun h => { h with ee := v.e }
  return v

/-- The distance of a copy. -/
def copyDist (v : Codes) : Code Codes := fromFlag 14 v do
  setFlag 14
  modifyHead fun h => { h with tt := v.t }
  needBits env v.e env.fuel
  setFlag 0
  let s ← get
  if s.head.tt = none ∨ v.t = none ∨ s.distBuf.isNone then ret 1
  else
    let d := (v.entry.n + (← bits v.e)) % 2 ^ 16
    recordToken (.distance d)
    putDist d
    let v ← onlyIf ((← get).dist = litBufsize) v (flush env v)
    dumpBits v.e
    return v

/-- The end of a round of the loop of `inflate_codes`. -/
def countRounds (v : Codes) : Code (Option Codes) :=
  if v.e = 0 then
    if 50 < v.loopFlag + 1 then do
      modifyHead fun h => { h with tt := none }
      ret 1
    else return some { v with loopFlag := v.loopFlag + 1 }
  else return some { v with loopFlag := 0 }

/-- A round of the loop of `inflate_codes`: the variables for the next round, or `none` at the end
of the block. -/
def codesRound (tl td : HuftPtr) (bl bd : Nat) (v : Codes) : Code (Option Codes) := do
  firstBits env bl v
  let v ← litCode env tl bl v
  if v.e = 16 then
    countRounds (← literal env v)
  else if v.e = 15 then
    endOfBlock
    return none
  else
    let v ← copyLength env v
    distBits env bd v
    let v ← distCode env td bd v
    countRounds (← copyDist env v)

/-- The loop of `inflate_codes`. -/
def codesLoop (tl td : HuftPtr) (bl bd : Nat) : Nat → Codes → Code Unit
  | 0, _ => throw .spin
  | fuel + 1, v => do
    match ← codesRound env tl td bl bd v with
    | none => return ()
    | some v => codesLoop tl td bl bd fuel v

/-- `inflate_codes`. -/
def inflateCodes (tl td : HuftPtr) (bl bd : Nat) : Code Nat := call do
  let s ← get
  codesLoop env tl td bl bd env.fuel
    (if s.flag ≠ 0 then ⟨s.head.ee, s.head.tt, 0, 0⟩ else ⟨env.stale, none, 0, 0⟩)
  modify fun s => { s with head := { s.head with bb := s.bb, bk := s.bk } }
  return 0

/-! ### Blocks -/

/-- `Head.tl`, `Head.td` and `Head.tt` are set to `NULL`. -/
def dropTables : Code Unit := modifyHead fun h => { h with tl := none, td := none, tt := none }

/-- A value of `n` bits, at its flag, that goes into a field of the head. -/
def readField (flag n : Nat) (store : Nat → Head → Head) : Code Unit := fromFlag flag () do
  setFlag flag
  needBits env n env.fuel
  setFlag 0
  let x ← bits n
  modifyHead (store x)
  dumpBits n

/-- The end of `inflate_fixed` and `inflate_dynamic`. -/
def matchBlock : Code Nat := do
  modify fun s => { s with length := s.lit }
  if ← keywordMatch env then
    modify fun s => { s with gkState := env.gkStateBlock }
    onlyIf ((← get).head.flag ≠ 0) () dropTables
    ret 1
  else
    return 0

/-- The code lengths of `inflate_fixed`. -/
def fixedLengths : List Nat :=
  List.replicate 144 8 ++ List.replicate 112 9 ++ List.replicate 24 7 ++ List.replicate 8 8

/-- `inflate_fixed`. -/
def inflateFixed : Code Nat := call do
  let lits := huftBuild env.stale fixedLengths 257 (some cplens) (some cplext) 7
  modifyHead fun h => { h with tl := lits.t.getD h.tl }
  if lits.code ≠ 0 then ret lits.code
  else
    let dists := huftBuild env.stale (List.replicate 30 5) 0 (some cpdist) (some cpdext) 5
    modifyHead fun h => { h with td := dists.t.getD h.td }
    if 1 < dists.code then
      dropTables
      ret dists.code
    else
      let s ← get
      match s.head.tl, s.head.td with
      | some tl, some td =>
        if (← inflateCodes env tl td lits.m dists.m) ≠ 0 then
          dropTables
          ret 1
        else matchBlock env
      | _, _ => ret 1

/-- `ll[i] = x`. -/
def setLength (i x : Nat) : Code Unit :=
  modifyHead fun h => { h with ll := fun k => if k = i then x else h.ll k }

/-- `ll[i++] = x`, `n` times. -/
def setLengths (i x : Nat) : Nat → Code Unit
  | 0 => return ()
  | n + 1 => do
    setLength i x
    setLengths (i + 1) x n

/-- The lengths of the bit length codes, `k` of `nb` at flag 6. -/
def bitLengths (nb : Nat) : Nat → Code Unit
  | 0 => return ()
  | k + 1 => do
    let j := nb - (k + 1)
    setFlag 6
    modifyHead fun h => { h with j }
    needBits env 3 env.fuel
    setFlag 0
    setLength (border[j]?.getD 0) (← bits 3)
    dumpBits 3
    bitLengths nb k

/-- The bit length codes that have no length in the block. -/
def clearBitLengths : List Nat → Code Unit
  | [] => return ()
  | j :: js => do
    setLength (border[j]?.getD 0) 0
    clearBitLengths js

/-- A code of the bit length alphabet, at flag 7. -/
def lengthCode (bl : Nat) (j : Nat) : Code Nat := fromFlag 7 j do
  setFlag 7
  needBits env bl env.fuel
  match (← get).head.tl with
  | none => ret 1
  | some tl =>
    let td := tl.add (← bits bl)
    modifyHead fun h => { h with td := some td }
    dumpBits td.get.b
    modifyHead fun h => { h with j := td.get.n }
    return td.get.n

/-- A repetition: `base` times and up to `2 ^ k - 1` times more. -/
def repeatLength (n k base i x : Nat) : Code Nat := do
  needBits env k env.fuel
  let j := base + (← bits k)
  dumpBits k
  if n < i + j then ret 1
  else
    setLengths i x j
    return i + j

/-- What a code `j` of the bit length alphabet stands for, at index `i` and behind the length `l`:
the next index and the last length. -/
def lengthRun (n i l j : Nat) : Code (Nat × Nat) :=
  if j < 16 then do
    setLength i j
    return (i + 1, j)
  else if j = 16 then return (← repeatLength env n 2 3 i l, l)
  else if j = 17 then return (← repeatLength env n 3 3 i 0, 0)
  else return (← repeatLength env n 7 11 i 0, 0)

/-- The loop that reads the `n` code lengths, from index `i` and the last length `l`. -/
def codeLengths (n bl : Nat) : Nat → Nat → Nat → Code Unit
  | 0, _, _ => return ()
  | fuel + 1, i, l =>
    if i < n then do
      let j ← lengthCode env bl (← get).head.j
      setFlag 8
      let next ← lengthRun env n i l j
      setFlag 0
      modifyHead fun h => { h with j := if j < 16 then j else 2 ^ 32 - 1 }
      codeLengths n bl fuel next.1 next.2
    else return ()

/-- The tables for the code lengths, up to flag 8, from the local `j`. -/
def buildBitLengths (j : Nat) : Code Unit := do
  let nb := (← get).head.nb
  fromFlag 6 () do
    bitLengths env nb (nb - j)
    clearBitLengths (List.range' (max j nb) (19 - max j nb))
    modifyHead fun h => { h with j := max j 19 }
  let s ← get
  if s.flag = 0 then
    let lengths := huftBuild env.stale ((List.range 19).map s.head.ll) 19 none none 7
    modifyHead fun h => { h with tl := lengths.t.getD h.tl }
    if lengths.code ≠ 0 then
      dropTables
      ret lengths.code
    else modifyHead fun h => { h with bl := lengths.m }
  else return ()

/-- The tables of the block, from the code lengths. -/
def buildTables : Code Unit := do
  dropTables
  modify fun s => { s with head := { s.head with bb := s.bb, bk := s.bk } }
  let h := (← get).head
  let lits := huftBuild env.stale ((List.range h.nl).map h.ll) 257 (some cplens) (some cplext) lbits
  modifyHead fun h => { h with tl := lits.t.getD h.tl }
  if lits.code ≠ 0 then
    onlyIf (lits.code = 1) () dropTables
    ret lits.code
  else
    let dists :=
      huftBuild env.stale ((List.range' h.nl h.nd).map h.ll) 0 (some cpdist) (some cpdext) dbits
    modifyHead fun h => { h with td := dists.t.getD h.td }
    if dists.code ≠ 0 then
      dropTables
      ret dists.code
    else modifyHead fun h => { h with bl := lits.m, bd := dists.m }

/-- `inflate_dynamic`. -/
def inflateDynamic : Code Nat := call do
  let s ← get
  let j := if s.flag = 0 then 0 else s.head.j
  readField env 3 5 fun x h => { h with nl := 257 + x }
  readField env 4 5 fun x h => { h with nd := 1 + x }
  readField env 5 4 fun x h => { h with nb := 4 + x }
  let h := (← get).head
  if 286 < h.nl ∨ 30 < h.nd then ret 1
  else
    buildBitLengths env j
    let s ← get
    let n := s.head.nl + s.head.nd
    onlyIf (s.flag = 0 ∨ s.flag = 7 ∨ s.flag = 8) () (codeLengths env n s.head.bl n 0 0)
    onlyIf ((← get).flag < 9) () (buildTables env)
    let h := (← get).head
    match h.tl, h.td with
    | some tl, some td =>
      if (← inflateCodes env tl td h.bl h.bd) ≠ 0 then
        dropTables
        ret 1
      else matchBlock env
    | _, _ => ret 1

/-- The loop over the bytes of a stored block. -/
def storedLoop : Nat → Code Unit
  | 0 => return ()
  | n + 1 => do
    setFlag 17
    modifyHead fun h => { h with n }
    needBits env 8 env.fuel
    setFlag 0
    dumpBits 8
    storedLoop n

/-- `inflate_stored`. -/
def inflateStored : Code Nat := call do
  let s ← get
  onlyIf (s.flag = 0) () (dumpBits (s.bk % 8))
  let n ← fromFlag 15 (if s.flag = 17 then s.head.n else env.stale) do
    setFlag 15
    needBits env 16 env.fuel
    setFlag 0
    let n ← bits 16
    dumpBits 16
    return n
  fromFlag 16 () do
    setFlag 16
    needBits env 16 env.fuel
    setFlag 0
    if n ≠ 2 ^ 16 - 1 - (← bits 16) then ret 1
    else dumpBits 16
  fromFlag 17 () (storedLoop env n)
  modify fun s => { s with head := { s.head with bb := s.bb, bk := s.bk } }
  return 0

/-- A block of type `t`. -/
def inflateType (t : Nat) : Code Nat :=
  if t = 2 then inflateDynamic env
  else if t = 0 then inflateStored env
  else if t = 1 then inflateFixed env
  else return 2

/-- `inflate_block`. -/
def inflateBlock : Code Nat := call do
  readField env 1 1 fun x h => { h with e := x }
  readField env 2 2 fun x h => { h with t := x }
  inflateType env (← get).head.t

/-- The loop of `inflate`. -/
def blocksLoop : Nat → Code Nat
  | 0 => throw .spin
  | fuel + 1 => do
    let r ← inflateBlock env
    let h := (← get).head
    if r ≠ 0 then return r
    else if h.e = 0 ∧ h.flag = 0 then blocksLoop fuel
    else return 0

/-- `inflate`. -/
def inflate : Code Nat := do
  modify fun s =>
    if s.head.flag ≠ 0 then { s with flag := s.head.flag, bb := s.head.bb, bk := s.head.bk }
    else
      { s with flag := 0, bb := 0, bk := 0, lit := 0, dist := 0, length := 0,
               head := { s.head with tl := none, td := none, tt := none } }
  blocksLoop env env.fuel

end Shutter.Gunzip
