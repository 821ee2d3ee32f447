import Shutter.Gunzip.Dynamic

/-! A compressed text: its blocks, the bits that they are written with, and what `inflate` makes of
them.  The bytes of a stored block are skipped, and the tokens of the other blocks are matched with
those of the blocks before. -/

namespace Shutter.Gunzip

open Shutter.Library

/-- A block with the fixed codes or its own, or the bytes of a stored one behind the bits that are
left of a byte. -/
inductive Block where
  | fixed (symbols : List Symbol)
  | dynamic (h : BlockHeader) (symbols : List Symbol)
  | stored (pad : List Bool) (bytes : List UInt8)

namespace Block

/-- The type of the block. -/
def type : Block → Nat
  | fixed _ => 1
  | dynamic _ _ => 2
  | stored _ _ => 0

/-- The bits behind the type. -/
def body : Block → List Bool
  | fixed symbols => blockBits fixedLengths fixedDistances symbols
  | dynamic h symbols => h.bits ++ blockBits h.literal h.distance symbols
  | stored pad bytes => pad ++ (bitsOf 16 bytes.length ++
      (bitsOf 16 (2 ^ 16 - 1 - bytes.length) ++ bytes.flatMap byteBits))

/-- The block can stand before the bits `rest`. -/
def Valid (rest : List Bool) : Block → Prop
  | fixed symbols => ∀ s ∈ symbols, s.Valid
  | dynamic h symbols => h.Valid ∧ ∀ s ∈ symbols, s.Valid ∧ s.Coded h.literal h.distance
  | stored pad bytes => pad.length < 8 ∧ bytes.length < 2 ^ 16 ∧ 8 ∣ rest.length

/-- The block with its header, where `e` says whether it is the last one. -/
def bits (e : Nat) (block : Block) : List Bool := bitsOf 1 e ++ (bitsOf 2 block.type ++ block.body)

end Block

/-- What the block makes of the buffers. -/
def Buffers.enter (b : Buffers) : Block → Stores
  | .fixed symbols => b.block (symbols.map Symbol.token)
  | .dynamic _ symbols => b.block (symbols.map Symbol.token)
  | .stored _ _ => ([], some b)

theorem Buffers.block_loop {b b' : Buffers} {tokens : List Token}
    (h : (b.block tokens).2 = some b') :
    b'.loop = 0 ∧ b'.loopFlag = 0 := by
  unfold Buffers.block Stores.bind at h
  split at h
  · next hNone => exact absurd (hNone.symm.trans h) nofun
  · obtain rfl := Option.some.inj h
    exact ⟨rfl, rfl⟩

theorem Buffers.enter_loop {b b' : Buffers} {block : Block} (hLoop : b.loop = 0 ∧ b.loopFlag = 0)
    (h : (b.enter block).2 = some b') : b'.loop = 0 ∧ b'.loopFlag = 0 := by
  cases block with
  | fixed symbols => exact Buffers.block_loop h
  | dynamic header symbols => exact Buffers.block_loop h
  | stored pad bytes => exact Option.some.inj h ▸ hLoop

/-! ### Stored blocks -/

section StoredBlock

variable {env : Env} {b : Buffers} {made : List (List (UInt8 × Nat))} {K : Kept} {k : Nat}
  {str : List Bool} {H : Head → Prop} {E : Exit → State → Prop}

/-- The bits that are left of a byte are dropped. -/
theorem ahead_align {pad : List Bool} (hPad : pad.length < 8)
    (hBytes : 8 ∣ str.length) {s : State} (hs : Ahead b made K env.fuel 0 (pad ++ str) 0 H s) :
    Triple (fun t => t = s) (onlyIf (s.flag = 0) () (dumpBits (s.bk % 8)))
      (fun _ => Ahead b made K env.fuel 0 str 0 H) E := by
  have hLength := stream_length s.source
  rw [hs.stream, List.length_append] at hLength
  have hLeft : s.bk % 8 = pad.length := by
    show s.source.bk % 8 = pad.length
    omega
  have hIn : pad.length ≤ s.bk := hLeft ▸ Nat.mod_le _ _
  have hDump : Triple (Ahead b made K env.fuel pad.length (pad ++ str) 0 H) (dumpBits pad.length)
      (fun _ => Ahead b made K env.fuel (pad.length - pad.length)
        ((pad ++ str).drop pad.length) 0 H) E :=
    ahead_dumpBits (Nat.le_refl _)
  rw [onlyIf, if_pos hs.flag_eq, hLeft]
  refine hDump.conseq (fun t ht => ?_) (fun _ t ht => ?_) fun _ _ h => h
  · subst ht
    exact { hs with read := hIn }
  · rw [List.drop_left] at ht
    exact ht.mono (Nat.zero_le _) fun _ h => h

/-- A value of 16 bits, at its flag. -/
theorem ahead_uint16 {α : Type} {f : Nat → Code α} {Q : α → State → Prop}
    {flag x : Nat} {a : α} (hx : x < 2 ^ 16)
    (hf : Triple (Ahead b made K env.fuel 16 (bitsOf 16 x ++ str) 0 H) (f x) Q E) :
    Triple (Ahead b made K env.fuel 0 (bitsOf 16 x ++ str) 0 H)
      (fromFlag flag a do
        setFlag flag
        needBits env 16 env.fuel
        setFlag 0
        let n ← bits 16
        f n) Q E := by
  have hLength : (bitsOf 16 x).length = 16 := bitsOf_length ..
  refine ahead_fromFlag (Triple.bind (ahead_setFlag flag) fun _ => Triple.bind
    (ahead_needBits (by decide) (by rw [List.length_append]; omega)) fun _ =>
    Triple.bind (ahead_setFlag 0) fun _ => ahead_bits (Nat.le_refl 16) ?_)
  rw [List.take_left' hLength, ofBits_bitsOf, Nat.mod_eq_of_lt hx]
  exact hf

theorem ahead_drop16 {x : Nat} :
    Triple (Ahead b made K env.fuel 16 (bitsOf 16 x ++ str) 0 H) (dumpBits 16)
      (fun _ => Ahead b made K env.fuel 0 str 0 H) E := by
  refine (ahead_dumpBits (Nat.le_refl 16)).conseq (fun _ hs => hs) (fun _ _ hs => ?_) fun _ _ h => h
  rw [List.drop_left' (bitsOf_length ..)] at hs
  exact hs.mono (Nat.zero_le _) fun _ h => h

/-- The bytes of a stored block are skipped. -/
theorem ahead_storedLoop (bytes : List UInt8) :
    Triple (Ahead b made K env.fuel 0 (bytes.flatMap byteBits ++ str) 0 fun _ => True)
      (storedLoop env bytes.length) (fun _ => Ahead b made K env.fuel 0 str 0 fun _ => True) E := by
  induction bytes with
  | nil => exact Triple.pure fun _ hs => hs
  | cons c bytes ih =>
    have hLength : (byteBits c).length = 8 := bitsOf_length ..
    rw [List.flatMap_cons, List.append_assoc, List.length_cons]
    refine Triple.bind (ahead_setFlag 17) fun _ =>
      Triple.bind (ahead_modifyHead (I := fun _ => True)
      (fun _ => ⟨rfl, rfl⟩) fun _ h => h) fun _ =>
        Triple.bind (ahead_needBits (by decide) (by rw [List.length_append]; omega))
      fun _ => Triple.bind (ahead_setFlag 0) fun _ =>
        Triple.bind (ahead_dumpBits (Nat.le_refl 8)) fun _ => ?_
    rw [List.drop_left' hLength]
    exact ih

/-- A stored block stores nothing. -/
theorem stored_inflateStored {pad : List Bool} {bytes : List UInt8} {rest : List Bool}
    (hPad : pad.length < 8) (hBytes : bytes.length < 2 ^ 16) (hRest : 8 ∣ rest.length)
    (hFuel : ((Block.stored pad bytes).body ++ rest).length < env.fuel) :
    Stored env K b (Coming K ((Block.stored pad bytes).body ++ rest))
      (inflateStored env) ([], some b)
      (Past K rest) := by
  let data := bytes.flatMap byteBits ++ rest
  let more := bitsOf 16 bytes.length ++ (bitsOf 16 (2 ^ 16 - 1 - bytes.length) ++ data)
  have hBody : (Block.stored pad bytes).body ++ rest = pad ++ more := by
    simp only [Block.body, List.append_assoc, more, data]
  have hMore : 8 ∣ more.length := by
    simp only [more, data, List.length_append, bitsOf_length, byteBits_length]
    omega
  have hOther : 2 ^ 16 - 1 - (2 ^ 16 - 1 - bytes.length) = bytes.length := by omega
  rw [hBody] at hFuel ⊢
  refine Stored.call (Performs.stored fun made =>
    Triple.conseq (P := Ahead b made K env.fuel 0 (pad ++ more) 0
    fun _ => True) (Q := fun v s => v = 0 ∧ Ahead b made K env.fuel 0 rest 0 (fun _ => True) s) ?_
    (fun _ hs => hs.2.ahead hs.1 hFuel) (fun _ s hs => ?_) fun _ _ h => h)
  swap
  · exact ⟨b, rfl, hs.1, by simp, by rw [List.append_nil]; exact hs.2.holding,
      hs.2.coming.past⟩
  refine Triple.get_bind fun s hs => Triple.bind (ahead_align hPad hMore hs) fun _ => ?_
  refine Triple.bind_eq (a := bytes.length) (S := Ahead b made K env.fuel 0
    (bitsOf 16 (2 ^ 16 - 1 - bytes.length) ++ data) 0 fun _ => True)
    (ahead_uint16 hBytes (Triple.bind ahead_drop16 fun _ => Triple.pure fun _ hs =>
      ⟨rfl, hs⟩)) ?_
  refine Triple.bind (Q := fun _ => Ahead b made K env.fuel 0 data 0 fun _ => True)
    (ahead_uint16 (by omega) ?_) fun _ => ?_
  · exact Triple.ite (fun hNot => absurd hOther.symm hNot) fun _ => ahead_drop16
  refine Triple.bind (ahead_fromFlag (ahead_storedLoop bytes)) fun _ => Triple.bind
    (Q := fun _ => Ahead b made K env.fuel 0 rest 0 fun _ => True) (Triple.modify fun s hs =>
    hs.congr ⟨rfl, rfl, rfl, rfl, rfl⟩ hs.tidy hs.stream
      (Nat.le_refl _) hs.read hs.flag_eq rfl trivial)
    fun _ => Triple.pure fun _ hs => ⟨rfl, hs⟩

end StoredBlock

/-! ### Blocks -/

section Blocks

variable {env : Env} {b : Buffers} {k : Kept} {rest : List Bool}

theorem Ended.congr {k' : Kept} {made : List (List (UInt8 × Nat))} {r : Stores}
    {e : Exit} {s : State} (h : Ended env k made r e s) (hk : k'.gkState = k.gkState) :
    Ended env k' made r e s :=
  ⟨h.ret, h.made, h.cause, by rw [h.gkState, verdict, verdict, hk]⟩

theorem Stored.congr {k' : Kept} {S S' : State → Prop} {x : Code Nat} {r : Stores}
    (h : Stored env k b S x r S') (hk : k'.gkState = k.gkState) : Stored env k' b S x r S' :=
  fun made => (h made).conseq (fun _ hs => hs) (fun _ _ hs => hs.imp_right fun ⟨hOne, hEnded⟩ =>
    ⟨hOne, hEnded.congr hk⟩) fun _ _ hs => hs.congr hk

theorem Block.type_lt (block : Block) : block.type < 2 ^ 2 := by
  cases block with
  | fixed symbols => exact (by decide : 1 < 4)
  | dynamic h symbols => exact (by decide : 2 < 4)
  | stored pad bytes => exact (by decide : 0 < 4)

theorem stored_inflateType {block : Block} (hValid : block.Valid rest)
    (hRest : bmax ≤ rest.length) (hFuel : bmax + (block.body ++ rest).length < env.fuel)
    (hZero : k.flag = 0) (hLoop : b.loop = 0 ∧ b.loopFlag = 0) :
    Stored env k b (Coming k (block.body ++ rest)) (inflateType env block.type) (b.enter block)
      (Past k rest) := by
  cases block with
  | fixed symbols => exact stored_inflateFixed hValid hRest hFuel hZero hLoop
  | dynamic h symbols =>
    simp only [Block.body, List.append_assoc] at hFuel ⊢
    exact stored_inflateDynamic hValid.1 hValid.2 hRest hFuel hZero hLoop
  | stored pad bytes => exact stored_inflateStored hValid.1 hValid.2.1 hValid.2.2 (by omega)

/-- A block is read with its header. -/
theorem stored_inflateBlock {block : Block} {e : Nat} (he : e < 2) (hValid : block.Valid rest)
    (hRest : bmax ≤ rest.length) (hFuel : bmax + (block.bits e ++ rest).length < env.fuel)
    (hZero : k.flag = 0) (hLoop : b.loop = 0 ∧ b.loopFlag = 0) :
    Stored env k b (Coming k (block.bits e ++ rest)) (inflateBlock env) (b.enter block)
      (Past { k with e } rest) := by
  simp only [Block.bits, List.append_assoc, List.length_append] at hFuel ⊢
  have hBody : bmax + (block.body ++ rest).length < env.fuel := by
    rw [List.length_append]
    omega
  have hType : Stored env k b (Coming { k with e } (block.body ++ rest))
    (inflateType env block.type)
      (b.enter block) (Past { k with e } rest) :=
    Stored.congr (stored_inflateType hValid hRest hBody hZero hLoop) rfl
  refine Stored.call fun made => Triple.conseq (P := Ahead b made k env.fuel 0
    (bitsOf 1 e ++ (bitsOf 2 block.type ++ (block.body ++ rest))) 0 fun _ => True) ?_
    (fun _ hs => hs.2.ahead hs.1 (by simp only [List.length_append]; omega)) (fun _ _ hs => hs)
    fun _ _ hs => hs
  refine Triple.bind (ahead_readKept (L := { k with e }) (I := fun _ => True) (by decide) he
    (fun s hs => by rw [← hs]; rfl) fun _ h => h) fun _ => ?_
  refine Triple.bind (ahead_readField (I := fun head => head.t = block.type)
    (by decide) block.type_lt
    (fun _ => ⟨rfl, rfl⟩) fun _ _ => rfl) fun _ => Triple.get_bind' fun s hs => ?_
  rw [hs.head]
  exact (hType made).conseq (fun _ hs => ⟨hs.holding, hs.coming⟩)
    (fun _ _ hs => hs) fun _ _ hs => hs

/-- The bits of the blocks. -/
def deflated : List Block → List Bool
  | [] => []
  | block :: blocks => block.bits (if blocks.isEmpty then 1 else 0) ++ deflated blocks

/-- The blocks can stand before the bits `rest`. -/
def BlocksValid (rest : List Bool) : List Block → Prop
  | [] => True
  | block :: blocks => block.Valid (deflated blocks ++ rest) ∧ BlocksValid rest blocks

/-- What the blocks make of the buffers. -/
def Buffers.enterAll (b : Buffers) : List Block → Stores
  | [] => ([], some b)
  | block :: blocks => Stores.bind (b.enter block) fun b => b.enterAll blocks

theorem deflated_length (blocks : List Block) : 3 * blocks.length ≤ (deflated blocks).length := by
  induction blocks with
  | nil => exact Nat.zero_le _
  | cons block blocks ih =>
    rw [deflated, List.length_append, Block.bits]
    simp only [List.length_append, bitsOf_length, List.length_cons]
    omega

/-- The chunk goes on behind the input, or there is one block. -/
def Goes (k : Kept) (blocks : List Block) : Prop :=
  toUnsigned k.chunkSize ≠ k.insize ∨ blocks.length = 1

/-- The loop reads all blocks. -/
theorem stored_blocksLoop {blocks : List Block} (hSome : blocks ≠ [])
    (hValid : BlocksValid rest blocks) (hRest : bmax ≤ rest.length)
    (hFuel : bmax + (deflated blocks ++ rest).length < env.fuel) {fuel : Nat}
    (hCount : blocks.length ≤ fuel) (hGoes : Goes k blocks) (hZero : k.flag = 0)
    (hLoop : b.loop = 0 ∧ b.loopFlag = 0) :
    Stored env k b (Coming k (deflated blocks ++ rest)) (blocksLoop env fuel) (b.enterAll blocks)
      fun s => s.gkState = k.gkState := by
  induction blocks generalizing k b fuel with
  | nil => exact absurd rfl hSome
  | cons block blocks ih =>
    obtain ⟨fuel, rfl⟩ : ∃ m, fuel = m + 1 :=
      ⟨fuel - 1, by rw [List.length_cons] at hCount; omega⟩
    obtain ⟨hBlock, hOthers⟩ := hValid
    have hMore : bmax ≤ (deflated blocks ++ rest).length := by
      rw [List.length_append]
      omega
    rw [deflated, List.append_assoc] at hFuel ⊢
    have hLast : (if blocks.isEmpty then 1 else 0) < 2 := by split <;> decide
    have hHead : Stored env k b _ (inflateBlock env) (b.enter block) _ :=
      stored_inflateBlock hLast hBlock hMore hFuel hZero hLoop
    refine Stored.bind hHead (fun made => Triple.get_bind' fun _ _ => Triple.ite
      (fun _ => Triple.pure fun _ hs => ⟨rfl, hs⟩) fun hNot => absurd Nat.one_ne_zero hNot)
        fun b' hb' made => ?_
    have hLoop' := Buffers.enter_loop hLoop hb'
    cases blocks with
    | nil =>
      refine Triple.get_bind' fun s hs => Triple.ite (fun hNot => absurd rfl hNot) fun _ =>
        Triple.ite (fun hMoves => ?_) fun _ => Triple.pure fun t ht =>
          Or.inl ⟨rfl, b', rfl, by simp [Buffers.enterAll],
          by rw [Buffers.enterAll, List.append_nil]; exact ht.1, ht.2.gkState⟩
      have hOne : s.head.e = 1 := congrArg Kept.e hs.2.kept
      exact absurd (hOne.symm.trans hMoves.1) Nat.one_ne_zero
    | cons next blocks =>
      have hMoves : toUnsigned k.chunkSize ≠ k.insize := hGoes.resolve_right (by simp)
      refine Triple.get_bind' fun s hs => Triple.ite (fun hNot => absurd rfl hNot) fun _ =>
        Triple.ite (fun _ => ?_) fun hNot => ?_
      · have hFuel' : bmax + (deflated (next :: blocks) ++ rest).length < env.fuel := by
          rw [List.length_append] at hFuel
          omega
        have hRun : Stored env k b' (Coming { k with e := 0 } (deflated (next :: blocks) ++ rest))
            (blocksLoop env fuel) (b'.enterAll (next :: blocks)) fun s => s.gkState = k.gkState :=
          Stored.congr (ih (List.cons_ne_nil _ _) hOthers hFuel' (Nat.le_of_succ_le_succ hCount)
            (Or.inl hMoves) hZero hLoop') rfl
        exact (hRun made).conseq (fun t ht => ⟨ht.1, ht.2.next hMoves⟩)
          (fun _ _ ht => ht) fun _ _ ht => ht
      · have hNext : s.head.e = 0 := congrArg Kept.e hs.2.kept
        have hFlag : s.head.flag = 0 := (congrArg Kept.flag hs.2.kept).trans hZero
        exact absurd ⟨hNext, hFlag⟩ hNot

/-- The buffers at the start of `inflate`. -/
def State.emptied (s : State) : Buffers := { s.buffers with lit := 0, dist := 0 }

theorem inflate_made {s : State} {blocks : List Block} (hSome : blocks ≠ [])
    (hValid : BlocksValid rest blocks) (hRest : bmax ≤ rest.length)
    (hBits : s.ahead.flatMap byteBits = deflated blocks ++ rest) (hZero : s.head.flag = 0)
    (hGoes : Goes s.kept blocks) (hLit : s.litterBuf.isSome) (hDist : s.distBuf.isSome)
    (hFuel : bmax + (deflated blocks ++ rest).length < env.fuel) :
    Triple (fun t => t = s) (inflate env)
      (fun _ => Made env s.kept ((calls s.trace).map MatchCall.tokens)
      (s.emptied.enterAll blocks).1)
      fun _ => Made env s.kept ((calls s.trace).map MatchCall.tokens)
        (s.emptied.enterAll blocks).1 := by
  have hLength := deflated_length blocks
  have hCount : blocks.length ≤ env.fuel := by
    rw [List.length_append] at hFuel
    omega
  have hLoop : Stored env s.kept s.emptied _ (blocksLoop env env.fuel) _ _ :=
    stored_blocksLoop hSome hValid hRest hFuel hCount hGoes hZero ⟨rfl, rfl⟩
  have hHolding := State.holding hLit hDist
  refine Triple.bind (Triple.modify fun t ht => ?_) fun _ => hLoop.made fun _ ht => ht
  subst ht
  rw [if_neg (not_not.mpr hZero)]
  exact ⟨⟨hHolding.litterBuf, hHolding.distBuf, rfl, rfl, rfl⟩,
    ⟨Nat.zero_lt_one, Nat.zero_lt_succ 31⟩, hBits, rfl, rfl⟩

/-- While a compressed text is read, `keyword_match` gets what the blocks make of the buffers, up to
the first call that finds something, and that call blocks the connection. -/
theorem inflate_calls {s : State} {blocks : List Block} (hSome : blocks ≠ [])
    (hValid : BlocksValid rest blocks) (hRest : bmax ≤ rest.length)
    (hBits : s.ahead.flatMap byteBits = deflated blocks ++ rest) (hZero : s.head.flag = 0)
    (hGoes : Goes s.kept blocks) (hLit : s.litterBuf.isSome) (hDist : s.distBuf.isSome) :
    ∃ n, ∀ env : Env, n ≤ env.fuel →
      (calls ((inflate env).final s).trace).map MatchCall.tokens =
        (calls s.trace).map MatchCall.tokens ++
          through env.keywordMatch (s.emptied.enterAll blocks).1 ∧
      ((inflate env).final s).gkState =
        if (s.emptied.enterAll blocks).1.any env.keywordMatch then env.gkStateBlock else
          s.gkState := by
  refine ⟨bmax + (deflated blocks ++ rest).length + 1, fun env hEnough => ?_⟩
  have hMade := triple_final (inflate_made hSome hValid hRest hBits hZero hGoes hLit hDist
    (show bmax + (deflated blocks ++ rest).length < env.fuel by omega)) rfl
  exact ⟨hMade.tokens, hMade.gkState⟩

/-- A stored block, and one with the letter `a`. -/
theorem inflate_calls_a :
    let s := State.ofBlock [0, 1, 0, 0xfe, 0xff, 98, 75, 4, 0, 0, 0]
    let blocks : List Block := [.stored (List.replicate 5 false) [98], .fixed [.literal 97]]
    ∃ n, ∀ env : Env, n ≤ env.fuel →
      (calls ((inflate env).final s).trace).map MatchCall.tokens =
        (calls s.trace).map MatchCall.tokens ++
          through env.keywordMatch (s.emptied.enterAll blocks).1 ∧
      ((inflate env).final s).gkState =
        if (s.emptied.enterAll blocks).1.any env.keywordMatch then env.gkStateBlock else
          s.gkState := by
  intro s blocks
  have hBits : s.ahead.flatMap byteBits = deflated blocks ++ List.replicate
    22 false := by decide +kernel
  have hSymbols : ∀ x ∈ [Symbol.literal 97], x.Valid :=
    List.forall_mem_cons.mpr ⟨trivial, nofun⟩
  exact inflate_calls (List.cons_ne_nil _ _) ⟨⟨by decide, by decide, by decide +kernel⟩,
    hSymbols, trivial⟩
    (by decide) hBits rfl (Or.inl (by decide)) rfl rfl

end Blocks

end Shutter.Gunzip
