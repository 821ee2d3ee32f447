import Shutter.Gunzip.Inflate
import Shutter.Stream.Bucket

/-! The down-stream side of a `data_head`: `memmatch`, `DelHeader`, `waitbuf`, `uncompress` and
`process_gzip_data` of `copeungz.c`.  A pointer into a block is an offset from its `data`. -/

namespace Shutter.Gunzip

open Shutter.Acsm (cstr)
open Shutter.Stream (Segment)

/-- What the functions of this file read that nothing has written: the memory behind the `data` of
a block, a local array, and the memory behind a string from `malloc`. -/
structure Memory where
  behind : Segment → List UInt8
  array : List UInt8
  heap : List UInt8

/-- The program around the inflater, as in `Env`. -/
structure Machine extends Memory where
  keywordMatch : List (UInt8 × Nat) → Bool
  gkStateBlock : Int
  stale : Nat
  fuel : Nat

/-- The memory from the `data` of a block on. -/
def Memory.from (m : Memory) (block : Segment) : List UInt8 := block ++ m.behind block

def ascii (s : List Char) : List UInt8 := s.map fun c => c.toNat.toUInt8

/-- `strstr`, as a condition. -/
def strstr (s t : List UInt8) : Bool := s.tails.any fun s => t.isPrefixOf s

/-! ### Numbers -/

/-- The value of a digit, in a base up to 16. -/
def digit (c : UInt8) : Nat :=
  if 48 ≤ c.toNat ∧ c.toNat ≤ 57 then c.toNat - 48
  else if 97 ≤ c.toNat ∧ c.toNat ≤ 102 then c.toNat - 87
  else if 65 ≤ c.toNat ∧ c.toNat ≤ 70 then c.toNat - 55
  else 16

/-- The value of the digits at the start of the string. -/
def digits (base : Nat) (s : List UInt8) : Nat :=
  (s.takeWhile fun c => digit c < base).foldl (fun n c => base * n + digit c) 0

/-- `strtol` without the prefix `0x`, which stands before a digit only. -/
def strtolDigits (base : Nat) : List UInt8 → Nat
  | 48 :: x :: c :: s =>
    if base = 16 ∧ (x = 120 ∨ x = 88) ∧ digit c < base then digits base (c :: s)
    else digits base (48 :: x :: c :: s)
  | s => digits base s

/-- `strtol`, as the value of an `int`. -/
def strtol (base : Nat) (s : List UInt8) : Int :=
  let s := s.dropWhile fun c => c = 32 ∨ (9 ≤ c.toNat ∧ c.toNat ≤ 13)
  match s with
  | 45 :: s => toInt (-min (strtolDigits base s : Int) (2 ^ 63))
  | 43 :: s => toInt (min (strtolDigits base s : Int) (2 ^ 63 - 1))
  | s => toInt (min (strtolDigits base s : Int) (2 ^ 63 - 1))

/-! ### Lines -/

section Lines

variable (m : Memory)

/-- The loop of `memmatch`, for up to `count` bytes: what it writes, and where it stops. -/
def memmatchLoop (block : Segment) (c : UInt8) : Nat → Nat → List UInt8 × Nat
  | 0, src => ([], src)
  | count + 1, src =>
    let x := (m.from block)[src]?.getD 0
    if x = c ∨ block.length ≤ src then ([x, 0], src)
    else
      let (dst, src) := memmatchLoop block c count (src + 1)
      (x :: dst, src)

/-- `memmatch`: the array behind `dst`, which was `old`, and the pointer that it returns. -/
def memmatch (block : Segment) (old : List UInt8) (src : Nat) (c : UInt8) (count : Nat) :
    List UInt8 × Nat :=
  let (dst, src) := memmatchLoop m block c (count - 1) src
  (dst ++ old.drop dst.length, src + 1)

/-- What `DelHeader` finds in the header lines. -/
structure Header where
  textFlag : Bool
  gzipFlag : Bool
  chunkFlag : Bool
  contentLength : Option Int

/-- A line of the loop of `DelHeader`.  The copy `num` has no terminator. -/
def Header.line (h : Header) (line : List UInt8) : Header where
  textFlag := h.textFlag || strstr line (ascii ['t', 'e', 'x', 't', '/', 'h', 't', 'm', 'l'])
  gzipFlag := h.gzipFlag || strstr line (ascii ['g', 'z', 'i', 'p'])
  chunkFlag := h.chunkFlag || strstr line (ascii ['c', 'h', 'u', 'n', 'k', 'e', 'd'])
  contentLength :=
    if strstr line
      (ascii ['C', 'o', 'n', 't', 'e', 'n', 't', '-', 'L', 'e', 'n', 'g', 't', 'h']) then
      some (strtol 10 (line.drop 16 ++ m.heap))
    else h.contentLength

/-- The line gives a type other than `text/html`. -/
def otherType (line : List UInt8) : Bool :=
  strstr line (ascii ['C', 'o', 'n', 't', 'e', 'n', 't', '-', 'T', 'y', 'p', 'e']) &&
    !strstr line (ascii ['t', 'e', 'x', 't', '/', 'h', 't', 'm', 'l'])

/-- The loop of `DelHeader`, and the offset behind it; without a header when the type of the
contents ends it. -/
def headerLoop (block : Segment) : Nat → List UInt8 → Nat → Header → Option Header × Nat
  | 0, _, p, h => (some h, p)
  | loopcount + 1, old, p, h =>
    let (array, p) := memmatch m block old p 10 2048
    let line := cstr array
    if otherType line then (none, p)
    else if line.length = 2 then (some (h.line m line), p)
    else headerLoop block loopcount array p (h.line m line)

/-- What `DelHeader` returns, and what it writes through its pointers, if it does. -/
structure Deleted where
  p : Nat
  textFlag : Bool
  gzipFlag : Bool
  chunk : Option Int
  headSize : Option Nat
  whole : Bool

/-- `DelHeader`.  With `whole` the header is all of the block, and `Http_flag` and `uchunk_flag` are
set. -/
def delHeader (stale : Nat) (block : Segment) : Deleted :=
  let (array, p) := memmatch m block m.array 0 10 2048
  match headerLoop m block 100 array p ⟨false, false, false, none⟩ with
  | (none, p) => ⟨p, false, false, none, none, false⟩
  | (some h, p) =>
    if p = block.length then
      let chunk := if h.chunkFlag then 0 else h.contentLength.getD 0
      ⟨p, h.textFlag, h.gzipFlag, some chunk, some p, true⟩
    else
      let chunk := h.contentLength.getD (toInt stale)
      let (p, chunk) :=
        if h.chunkFlag then
          let (size, p) := memmatch m block m.array p 10 16
          let chunk := strtol 16 (cstr size)
          if chunk = 10 then
            let (size, p) := memmatch m block size (p + 10) 10 16
            (p, strtol 16 (cstr size))
          else (p, chunk)
        else (p, chunk)
      ⟨p, h.textFlag, h.gzipFlag, some chunk, some (min p block.length), false⟩

end Lines

/-! ### Blocks -/

/-- `current_block`. -/
def State.block (s : State) : Option Segment := s.currentBlock.bind fun c => s.down[c]?

/-- `current_block->next`. -/
def State.nextBlock (s : State) : Option Nat :=
  s.currentBlock.bind fun c => if c + 1 < s.down.length then some (c + 1) else none

section Waitbuf

variable (m : Memory)

/-- The end of `waitbuf` behind a size line: `size` is the array with the line, and `p` the offset
behind it. -/
def chunkHeader (block : Segment) (size : List UInt8) (p : Nat) : Code Unit := do
  let chunk := strtol 16 (cstr size)
  let (p, chunk) :=
    if chunk = 0 ∧ p = 2 then
      let (size, p) := memmatch m block size p 10 32
      (p, strtol 16 (cstr size))
    else (p, chunk)
  let headSize := if block.length = 2 ∧ chunk = 0 then block.length else min p block.length
  modify fun s => { s with chunkSize := chunk, headSize }
  if chunk ≠ 0 then
    let left := block.length - headSize
    modify fun s =>
      { s with inbuf := (m.from block).drop headSize,
               insize := if toUnsigned chunk < left then toUnsigned chunk else left, inptr := 0 }
  else modify fun s => { s with insize := 0 }

/-- The block that `waitbuf` goes on with, after `next` to the one behind the last. -/
def fillBuffer (next : Bool) (block : Segment) : Code Unit := do
  modify fun s => { s with inbuf := m.from block }
  let s ← get
  if block.length ≤ toUnsigned s.chunkSize then
    modify fun s => { s with insize := block.length, inptr := 0, headSize := 0 }
  else if 0 < s.chunkSize then
    modify fun s => { s with insize := s.chunkSize.toNat, inptr := 0, headSize := 0 }
  else if next then
    let (size, p) := memmatch m block m.array 0 10 32
    chunkHeader m block size p
  else if 4 < toUnsigned (block.length - s.insize) then
    if block.length < toUnsigned (s.insize + s.headSize + 2) then
      modify fun s => { s with empty := true }
    else
      let (size, p) := memmatch m block m.array (s.insize + s.headSize + 2).toNat 10 32
      let (size, p) := if strtol 16 (cstr size) = 0 then memmatch m block size p 10
        32 else (size, p)
      chunkHeader m block size p
  else modify fun s => { s with insize := toUnsigned (block.length - s.headSize) }

/-- `waitbuf`. -/
def waitbuf : Code Unit := do
  modify fun s =>
    { s with chunkSize := max 0 (if 0 < s.chunkSize then toInt (s.chunkSize - s.inptr)
                                 else s.chunkSize) }
  let s ← get
  match s.block with
  | none => modify fun s => { s with empty := true, gzipFlag := false }
  | some block =>
    if s.chunkSize ≠ 0 ∨ s.insize = toUnsigned (block.length - s.headSize) ∨
        s.insize = toUnsigned (block.length - s.headSize - 2) then
      match s.nextBlock with
      | none => modify fun s => { s with empty := true }
      | some next =>
        modify fun s => { s with currentBlock := some next }
        fillBuffer m true (s.down[next]?.getD [])
    else fillBuffer m false block

end Waitbuf

/-! ### The gzip header -/

/-- `get_byte`. -/
def getByte : Code UInt8 := do
  let s ← get
  let c := s.inbuf[s.inptr]?.getD 0
  set { s with inptr := s.inptr + 1, taken := s.taken ++ [c] }
  return c

/-- `get_byte`, `n` times. -/
def skipBytes : Nat → Code Unit
  | 0 => return ()
  | n + 1 => do
    let _ ← getByte
    skipBytes n

/-- The loops that read a string up to its end. -/
def skipString : Nat → Code Unit
  | 0 => return ()
  | n + 1 => do onlyIf ((← getByte) ≠ 0) () (skipString n)

/-- The loops end at the latest behind all the memory there is. -/
def skipName : Code Unit := do
  let s ← get
  skipString (s.inbuf.length - s.inptr + 1)

/-- `get_method`. -/
def getMethod (env : Env) : Code Int := do
  let magic₀ ← getByte
  let magic₁ ← getByte
  if magic₀ = 0x1f ∧ (magic₁ = 0x8b ∨ magic₁ = 0x9e) then
    if (← getByte) = 8 then
      let flags ← getByte
      skipBytes 6
      onlyIf (flags &&& 0x02 ≠ 0) () (skipBytes 2)
      onlyIf (flags &&& 0x04 ≠ 0) () do
        let len₀ ← getByte
        let len₁ ← getByte
        skipBytes (len₀.toNat + 256 * len₁.toNat)
      onlyIf (flags &&& 0x08 ≠ 0) () skipName
      onlyIf (flags &&& 0x10 ≠ 0) () skipName
      return 8
    else return -1
  else return env.stale

/-- `uncompress`, with the `len` bytes from `str` on. -/
def uncompress (env : Env) (str : List UInt8) (len : Nat) : Code Unit := do
  modify fun s => { s with inbuf := str, insize := len, inptr := 0 }
  let s ← get
  let method ← onlyIf (s.httpFlag = false ∨ s.uchunkFlag = true) 8 do
    let method ← getMethod env
    modify fun s => { s with httpFlag := true, uchunkFlag := false }
    return method
  let s ← get
  onlyIf (method = 8 ∨ s.httpFlag = true) () do
    let error ← inflate env
    onlyIf (error ≠ 0) () (modify fun s => { s with gzipFlag := false })

/-! ### `process_gzip_data` -/

section Process

variable (m : Machine)

def Machine.env : Env := ⟨m.keywordMatch, m.gkStateBlock, waitbuf m.toMemory, m.stale, m.fuel⟩

/-- The loop that looks for a size line, from the local `head_size` and the pointer `temp`; `none`
when there is no block left. -/
def sizeLoop : Nat → Nat → Nat → Code (Option (Nat × Nat × Nat))
  | 0, headSize, temp => return some (0, headSize, temp)
  | loop + 1, headSize, temp => do
    let s ← get
    if s.chunkSize ≠ 0 then return some (loop + 1, headSize, temp)
    else
      let next := s.blockLen ≤ headSize
      if next ∧ s.nextBlock = none then return none
      else
        onlyIf next () (modify fun s => { s with currentBlock := s.nextBlock })
        let headSize := if next then 0 else headSize
        let block := (← get).block.getD []
        let (size, temp) := memmatch m.toMemory block m.array headSize 10 10
        let chunk := strtol 16 (cstr size)
        let headSize := headSize + (cstr size).length
        let (size', temp') := memmatch m.toMemory block size temp 10 10
        let again := headSize = 2 ∧ chunk = 0
        let headSize := if again then headSize + (cstr size').length else headSize
        let temp := if again then temp' else temp
        modify fun s => { s with chunkSize := chunk, headSize := temp }
        if chunk = 0 ∧ (headSize = 3 ∨ headSize = 7) then
          modify fun s => { s with httpFlag := false, textFlag := false }
          return some (loop, headSize, temp)
        else sizeLoop loop headSize temp

/-- `process_gzip_data` behind the size line: `temp` points behind the line, and `head_size` is the
part of the block that the inflater does not get. -/
def inflateBlockData (headSize temp : Nat) : Code Unit := do
  let s ← get
  let block := s.block.getD []
  let headSize :=
    if headSize = 0 ∧ toUnsigned s.chunkSize < block.length then
      block.length - toUnsigned s.chunkSize
    else headSize
  let left := toUnsigned (block.length - headSize)
  onlyIf (0 < s.chunkSize) () (uncompress m.env ((m.from block).drop temp)
    (if toUnsigned s.chunkSize < left then toUnsigned s.chunkSize else left))
  let s ← get
  if s.chunkSize = 10 ∧ s.head.flag = 0 then
    modify fun s => { s with currentBlock := (s.nextBlock <|> s.currentBlock), chunkSize := 0 }
  else onlyIf (s.chunkSize ≤ 0 ∧ s.head.flag = 0) () do
    modify fun s => { s with chunkSize := 0, httpFlag := false }

/-- The branch of `process_gzip_data` for a response that is decompressed. -/
def processChunk (headSize temp : Nat) : Code Unit := do
  match ← sizeLoop m 10 headSize temp with
  | none => return ()
  | some (loop, headSize, temp) =>
    if loop = 0 then modify fun s => { s with httpFlag := false }
    else
      let s ← get
      if s.blockLen = headSize ∨ headSize + 2 = s.blockLen then
        match s.nextBlock with
        | none => return ()
        | some next =>
          modify fun s => { s with currentBlock := some next, headSize := 0 }
          inflateBlockData m 0 0
      else inflateBlockData m headSize temp

/-- The block is taken for one that starts with a header. -/
def Machine.isHeader (m : Machine) (block : Segment) : Bool :=
  let text := cstr (m.from block)
  strstr text (ascii ['H', 'T', 'T', 'P', '/', '1']) ||
    strstr text (ascii ['C', 'o', 'n', 't', 'e', 'n', 't', '-', 'T', 'y', 'p', 'e', ':'])

/-- `process_gzip_data`, from the test of the buffers on. -/
def processBlock : Code Unit := do
  let s ← get
  match s.block with
  | none => return ()
  | some block =>
    if s.litterBuf.isNone ∨ s.distBuf.isNone then return ()
    else
      let http := m.isHeader block
      modify fun s => { s with httpFlag := !http }
      let del := delHeader m.toMemory m.stale block
      onlyIf (http = true) () do
        modify fun s =>
          { s with httpFlag := del.whole, uchunkFlag := s.uchunkFlag || del.whole,
                   textFlag := del.textFlag, gzipFlag := del.gzipFlag,
                   chunkSize := del.chunk.getD (toInt m.stale), headSize := del.headSize.getD 0,
                   head := { s.head with flag := 0 } }
      let s ← get
      if s.textFlag ∧ s.gzipFlag then
        processChunk m (if http then del.headSize.getD 0 else 0) (if http then del.p else 0)
      else
        modify fun s =>
          { s with currentBlock := (s.nextBlock <|> s.currentBlock), httpFlag := false }

/-- `process_gzip_data`, on a head with a stream and down-stream data. -/
def process : Code Unit := do
  let s ← get
  match s.currentBlock, s.nextBlock with
  | none, _ =>
    modify fun s => { s with currentBlock := some 0 }
    processBlock m
  | some _, some next =>
    modify fun s => { s with currentBlock := some next }
    processBlock m
  | some _, none => return ()

/-- The zeros of `memset`. -/
def Gzip.zero : Gzip :=
  ⟨⟨0, 0, 0, 0, 0, 0, 0, 0, 0, fun _ => 0, 0, 0, 0, 0, none, none, none⟩,
    none, false, false, false, false, 0, 0, 0, 0, 0, none, none⟩

/-- The state in which `process_gzip_data` starts.  The globals are written before they are read. -/
def State.start (down : List Segment) (gzip : Gzip) (gkState : Int) : State :=
  { gzip with down, gkState, inbuf := [], insize := 0, inptr := 0, empty := false, flag := 0,
              bb := 0, bk := 0, taken := [], trace := [] }

/-- The state in which a program ends. -/
def Code.final {α : Type} (x : Code α) (s : State) : State :=
  match x s with
  | .ok _ s => s
  | .error _ s => s

/-- A program that finds no keyword, with zeros behind its blocks. -/
def quiet : Machine := ⟨⟨fun _ => [], [], []⟩, fun _ => false, 1, 0, 100⟩

/-- The state in which a zeroed head with two buffers inflates a block of a larger chunk. -/
def State.ofBlock (block : Segment) : State :=
  { State.start [block] { Gzip.zero with
      currentBlock := some 0, textFlag := true, gzipFlag := true, chunkSize := block.length + 1,
      litterBuf := some ⟨1, fun _ => 0⟩, distBuf := some ⟨2, fun _ => 0⟩ } 0 with
    inbuf := block, insize := block.length }

end Process

end Shutter.Gunzip
