import Shutter.Gunzip.Deflated
import Shutter.Gunzip.GzipHeader

/-! The verdict on a compressed text for which there is room in the buffers: at the end of each
block with codes, `keyword_match` searches the text so far. -/

namespace Shutter.Gunzip

open Shutter.Library
open Shutter.Acch (Contains Deep acch copyText expandToken expansion expand search_agrees acch_eq
  takenShallow wsize)
open Shutter.Acsm (Pattern AcsmxStruct acsmcompile)

/-! ### Texts -/

/-- The text behind a symbol. -/
def Symbol.expand (t : List UInt8) : Symbol → Option (List UInt8)
  | .literal c => some (t ++ [c])
  | .copy i x j y => copyText (copyDistance j y) (copyLength i x) t

/-- The text behind the symbols, if no distance exceeds the text before. -/
def symbolsText (t : List UInt8) : List Symbol → Option (List UInt8)
  | [] => some t
  | s :: symbols => (s.expand t).bind fun t => symbolsText t symbols

/-- The entries of the buffers for the symbols. -/
def pairs (symbols : List Symbol) : List (UInt8 × Nat) := symbols.map fun s => s.token.pair

section Texts

variable {t : List UInt8}

theorem expand_symbol {s : Symbol} (h : s.Valid) :
    expandToken s.token.pair.1 s.token.pair.2.toUInt16 t = s.expand t := by
  cases s with
  | literal c => rfl
  | copy i x j y =>
    obtain ⟨hi, hx, hj, hy⟩ := h
    obtain ⟨-, hLow, hHigh⟩ := length_bounds hi
    have hFar := distance_lt hj hy
    have hNear : 0 < cpdist[j]?.getD 0 := by
      revert hj
      clear * -
      revert j
      decide
    have hLength : (Symbol.copyLength i x - 3).toUInt8.toNat + 3 = Symbol.copyLength i x := by
      rw [UInt8.toNat_ofNat', Symbol.copyLength]
      omega
    have hDistance : (Symbol.copyDistance j y).toUInt16.toNat = Symbol.copyDistance j y := by
      rw [UInt16.toNat_ofNat', Nat.mod_eq_of_lt hFar]
    have hSome : (Symbol.copyDistance j y).toUInt16 ≠ 0 := fun hZero => by
      have hNone := hDistance.symm.trans (congrArg UInt16.toNat hZero)
      rw [Symbol.copyDistance] at hNone
      exact absurd hNone (Nat.ne_of_gt (Nat.add_pos_left hNear y))
    simp only [Symbol.token, Token.pair, expandToken, if_neg hSome, hLength, hDistance]
    rfl

theorem textFrom_pairs {symbols : List Symbol} (h : ∀ s ∈ symbols, s.Valid) :
    textFrom t (pairs symbols) = symbolsText t symbols := by
  induction symbols generalizing t with
  | nil => rfl
  | cons s symbols ih =>
    obtain ⟨hs, hOthers⟩ := List.forall_mem_cons.mp h
    rw [pairs, List.map_cons, textFrom, expand_symbol hs, symbolsText]
    exact congrArg _ (funext fun t => ih hOthers)

theorem symbolsText_append (symbols more : List Symbol) :
    symbolsText t (symbols ++ more) = (symbolsText t symbols).bind fun t => symbolsText t more := by
  induction symbols generalizing t with
  | nil => rfl
  | cons s symbols ih =>
    rw [List.cons_append, symbolsText, symbolsText, Option.bind_assoc]
    exact congrArg _ (funext fun t => ih)

end Texts

/-! ### The search -/

/-- The bytes of `litter_buf` and the values of `dist_buf`, for these entries. -/
def litters (tokens : List (UInt8 × Nat)) (i : Nat) : UInt8 := (tokens[i]?.map Prod.fst).getD 0

def distances (tokens : List (UInt8 × Nat)) (i : Nat) : UInt16 :=
  ((tokens[i]?.map Prod.snd).getD 0).toUInt16

theorem expand_drop (tokens : List (UInt8 × Nat)) {rest i : Nat} (h : i + rest = tokens.length)
    (t : List UInt8) :
    expand (litters tokens) (distances tokens) rest i t = textFrom t (tokens.drop i) := by
  induction rest generalizing i t with
  | zero =>
    rw [List.drop_eq_nil_of_le (by omega)]
    rfl
  | succ rest ih =>
    have hi : i < tokens.length := by omega
    have hLitter : litters tokens i =
      tokens[i].1 := by rw [litters, List.getElem?_eq_getElem hi]; rfl
    have hDistance : distances tokens i = tokens[i].2.toUInt16 := by
      rw [distances, List.getElem?_eq_getElem hi]; rfl
    rw [List.drop_eq_getElem_cons hi, textFrom, expand, hLitter, hDistance]
    exact congrArg _ (funext fun t => ih (by omega) t)

/-- `acch` over these entries, with the arrays as it finds them. -/
def acchFinds (acsm : AcsmxStruct) (m : Acch.Memory) (tokens : List (UInt8 × Nat)) : Bool :=
  (acch acsm (litters tokens) (distances tokens) 0 tokens.length m).any fun o => o.ret == 1

/-- A call over the symbols that finds these arrays takes no byte for shallow that is deep in the
text. -/
def TakesShallow (ps : List Pattern) (m : Acch.Memory) (symbols : List Symbol)
    (t : List UInt8) : Prop :=
  ∀ x ∈ takenShallow ps (litters (pairs symbols)) (distances (pairs symbols)) symbols.length m,
    ¬Deep ps (t.take (x + 1))

instance (ps : List Pattern) (m : Acch.Memory) (symbols : List Symbol) (t : List UInt8) :
    Decidable (TakesShallow ps m symbols t) :=
  inferInstanceAs (Decidable (∀ x ∈ takenShallow ps _ _ _ m, ¬Deep ps (t.take (x + 1))))

theorem acchFinds_iff {acsm acsm' : AcsmxStruct} (hCompile : acsmcompile acsm = some acsm')
    (hNonempty : ∀ p ∈ acsm.acsmPatterns, p ≠ []) {m : Acch.Memory} {symbols : List Symbol}
    (hValid : ∀ s ∈ symbols, s.Valid) {t T : List UInt8}
    (hText : symbolsText [] symbols = some t) (hPrefix : t <+: T) (hFits : T.length < wsize - 1)
    (hShallow : TakesShallow acsm.acsmPatterns m symbols T) :
    acchFinds acsm' m (pairs symbols) = true ↔ Contains acsm.acsmPatterns t := by
  have hLength : (pairs symbols).length = symbols.length := List.length_map _
  have hExpand : expansion (litters (pairs symbols)) (distances (pairs symbols)) symbols.length =
      some t := by
    rw [expansion, expand_drop _ (by rw [hLength, Nat.zero_add]), List.drop_zero,
      textFrom_pairs hValid, hText]
  obtain ⟨o, hSearch, hRet⟩ := search_agrees hNonempty hExpand
    (Nat.lt_of_le_of_lt hPrefix.length_le hFits) hPrefix hShallow
  rw [acchFinds, hLength, acch_eq hCompile hNonempty, hSearch, Option.any_some, beq_iff_eq, hRet]

/-! ### Short texts -/

/-- The symbols of a block that are matched. -/
def Block.symbols : Block → List Symbol
  | .fixed symbols => symbols
  | .dynamic _ symbols => symbols
  | .stored _ _ => []

/-- The symbols so far, at the end of each block with codes. -/
def soFar (seen : List Symbol) : List Block → List (List Symbol)
  | [] => []
  | .stored _ _ :: blocks => soFar seen blocks
  | block :: blocks => (seen ++ block.symbols) :: soFar (seen ++ block.symbols) blocks

/-- There is room in the buffers for the tokens of the blocks, whose rows fit. -/
structure HasRoom (blocks : List Block) : Prop where
  room : (blocks.flatMap Block.symbols).length < litBufsize
  rows : ∀ block ∈ blocks, RowsFit 0 (block.symbols.map Symbol.token)

theorem pairs_append (symbols more : List Symbol) : pairs (symbols ++ more) =
    pairs symbols ++ pairs more :=
  List.map_append

theorem pairs_token (symbols : List Symbol) : (symbols.map Symbol.token).map Token.pair =
    pairs symbols :=
  List.map_map

/-- A compressed text with room is matched once at the end of each block with codes. -/
theorem enterAll_short {b : Buffers} {seen : List Symbol} {blocks : List Block}
    (h : b.Holds (pairs seen))
    (hRoom : seen.length + (blocks.flatMap Block.symbols).length < litBufsize)
    (hRows : ∀ block ∈ blocks, RowsFit 0 (block.symbols.map Symbol.token))
    (hFlag : b.loopFlag = 0) :
    (b.enterAll blocks).1 = (soFar seen blocks).map pairs := by
  induction blocks generalizing b seen with
  | nil => rfl
  | cons block blocks ih =>
    obtain ⟨hRow, hOthers⟩ := List.forall_mem_cons.mp hRows
    rw [List.flatMap_cons, List.length_append] at hRoom
    have hCoded : b.enter block = b.block (block.symbols.map Symbol.token) →
        (b.enterAll (block :: blocks)).1 =
          pairs (seen ++ block.symbols) :: (soFar (seen ++ block.symbols) blocks).map pairs :=
            fun hEnter => by
      have hFits : (pairs seen).length + (block.symbols.map Symbol.token).length < litBufsize := by
        rw [pairs, List.length_map, List.length_map]
        omega
      obtain ⟨b', hBlock, hHolds, hFlag'⟩ :=
        Buffers.block_short h hFits (by rw [hFlag]; exact hRow)
      rw [pairs_token, ← pairs_append] at hBlock hHolds
      have hRest := ih hHolds (by rw [List.length_append]; omega) hOthers hFlag'
      rw [Buffers.enterAll, hEnter, hBlock, ← hRest]
      rfl
    cases block with
    | fixed symbols => exact hCoded rfl
    | dynamic header symbols => exact hCoded rfl
    | stored pad bytes => exact ih h (by omega) hOthers hFlag

/-- The symbols so far are a part of all, and have a text if all do. -/
theorem soFar_text {seen symbols : List Symbol} {blocks : List Block} {t : List UInt8}
    (h : symbols ∈ soFar seen blocks)
    (hText : symbolsText [] (seen ++ blocks.flatMap Block.symbols) = some t) :
    ∃ rest t', seen ++ blocks.flatMap Block.symbols = symbols ++ rest ∧
      symbolsText [] symbols = some t' ∧ symbolsText t' rest = some t := by
  have hSplit : ∃ rest, seen ++ blocks.flatMap Block.symbols = symbols ++ rest := by
    clear hText
    induction blocks generalizing seen with
    | nil => cases h
    | cons block blocks ih =>
      rw [List.flatMap_cons]
      have hCoded : symbols ∈ (seen ++ block.symbols) :: soFar (seen ++ block.symbols) blocks →
          ∃ rest, seen ++ (block.symbols ++ blocks.flatMap Block.symbols) = symbols ++ rest :=
            fun h => by
        rw [← List.append_assoc]
        rcases List.mem_cons.mp h with rfl | h
        · exact ⟨_, rfl⟩
        · exact ih h
      cases block with
      | fixed symbols => exact hCoded h
      | dynamic header symbols => exact hCoded h
      | stored pad bytes => exact ih h
  obtain ⟨rest, hRest⟩ := hSplit
  rw [hRest, symbolsText_append] at hText
  obtain ⟨t', hFirst, hLast⟩ := Option.bind_eq_some_iff.mp hText
  exact ⟨rest, t', hRest, hFirst, hLast⟩

theorem symbolsText_extends {symbols : List Symbol} {t t' : List UInt8}
    (h : symbolsText t symbols = some t') : t <+: t' := by
  induction symbols generalizing t with
  | nil => exact Option.some.inj h ▸ List.prefix_rfl
  | cons s symbols ih =>
    obtain ⟨t₁, hFirst, hRest⟩ := Option.bind_eq_some_iff.mp h
    refine List.IsPrefix.trans ?_ (ih hRest)
    cases s with
    | literal c => exact Option.some.inj hFirst ▸ List.prefix_append _ _
    | copy i x j y => exact Acch.copyText_prefix hFirst

theorem Block.symbols_valid {rest : List Bool} {block : Block} (h : block.Valid rest) :
    ∀ s ∈ block.symbols, s.Valid := by
  cases block with
  | fixed symbols => exact h
  | dynamic header symbols => exact fun s hs => (h.2 s hs).1
  | stored pad bytes => nofun

theorem BlocksValid.symbols {rest : List Bool} {blocks : List Block} (h : BlocksValid rest blocks) :
    ∀ s ∈ blocks.flatMap Block.symbols, s.Valid := by
  induction blocks with
  | nil => nofun
  | cons block blocks ih =>
    rw [List.flatMap_cons]
    exact List.forall_mem_append.mpr ⟨Block.symbols_valid h.1, ih h.2⟩

/-- The last call is made with all symbols. -/
theorem soFar_all (seen : List Symbol) (blocks : List Block) :
    soFar seen blocks = [] ∧ blocks.flatMap Block.symbols = [] ∨
      seen ++ blocks.flatMap Block.symbols ∈ soFar seen blocks := by
  induction blocks generalizing seen with
  | nil => exact Or.inl ⟨rfl, rfl⟩
  | cons block blocks ih =>
    rw [List.flatMap_cons]
    have hCoded : seen ++ (block.symbols ++ blocks.flatMap Block.symbols) ∈
        (seen ++ block.symbols) :: soFar (seen ++ block.symbols) blocks := by
      rw [← List.append_assoc]
      rcases ih (seen ++ block.symbols) with ⟨-, hNone⟩ | hMem
      · rw [hNone, List.append_nil]
        exact List.mem_cons_self
      · exact List.mem_cons_of_mem _ hMem
    cases block with
    | fixed symbols => exact Or.inr hCoded
    | dynamic header symbols => exact Or.inr hCoded
    | stored pad bytes => exact ih seen

/-- The calls for a compressed text with room find something exactly when the text contains a
pattern.  The arrays of each call are those that the calls before have left. -/
theorem verdict_iff {acsm acsm' : AcsmxStruct} (hCompile : acsmcompile acsm = some acsm')
    (hNonempty : ∀ p ∈ acsm.acsmPatterns, p ≠ []) {mem : Nat → Acch.Memory} {env : Env}
    {blocks : List Block} {rest : List Bool} {t : List UInt8}
    (hMatch : ∀ i symbols, (soFar [] blocks)[i]? = some symbols →
      env.keywordMatch (pairs symbols) = acchFinds acsm' (mem i) (pairs symbols))
    {k : Kept} (hOpen : k.gkState ≠ env.gkStateBlock) (hValid : BlocksValid rest blocks)
    (hText : symbolsText [] (blocks.flatMap Block.symbols) = some t) (hFits : t.length < wsize - 1)
    (hShallow : ∀ i symbols, (soFar [] blocks)[i]? = some symbols →
      TakesShallow acsm.acsmPatterns (mem i) symbols t) :
    verdict env k ((soFar [] blocks).map pairs) = env.gkStateBlock ↔
      Contains acsm.acsmPatterns t := by
  have hFinds : ∀ symbols ∈ soFar [] blocks, ∃ t', symbolsText [] symbols =
    some t' ∧ t' <+: t ∧
      (env.keywordMatch (pairs symbols) = true ↔ Contains acsm.acsmPatterns t') := by
    intro symbols hMem
    obtain ⟨more, t', hSplit, hFirst, hLast⟩ := soFar_text hMem hText
    have hAll := BlocksValid.symbols hValid
    rw [← List.nil_append (blocks.flatMap Block.symbols), hSplit] at hAll
    obtain ⟨i, hCall⟩ := List.mem_iff_getElem?.mp hMem
    have hPrefix := symbolsText_extends hLast
    refine ⟨t', hFirst, hPrefix, ?_⟩
    rw [hMatch i symbols hCall]
    exact acchFinds_iff hCompile hNonempty (List.forall_mem_append.mp hAll).1 hFirst hPrefix hFits
      (hShallow i symbols hCall)
  constructor
  · intro hBlocked
    by_contra hNone
    refine hOpen (Eq.trans (Eq.symm ?_) hBlocked)
    refine verdict_none fun c hc => ?_
    obtain ⟨symbols, hMem, rfl⟩ := List.mem_map.mp hc
    obtain ⟨t', -, hPrefix, hIff⟩ := hFinds symbols hMem
    exact Bool.eq_false_iff.mpr fun hFound => hNone ((hIff.mp hFound).mono hPrefix)
  · intro hContains
    rcases soFar_all [] blocks with ⟨-, hEmpty⟩ | hLast
    · rw [hEmpty] at hText
      obtain rfl := Option.some.inj hText
      obtain ⟨p, hp, hInfix⟩ := hContains
      exact absurd (List.infix_nil.mp hInfix) (hNonempty p hp)
    · obtain ⟨t', hText', -, hIff⟩ := hFinds _ hLast
      obtain rfl := Option.some.inj (hText.symm.trans hText')
      exact verdict_found ⟨_, List.mem_map_of_mem hLast, hIff.mpr hContains⟩

/-! ### A member in one fragment -/

section Member

variable {fragment behind data : List UInt8} {s t : State}

/-- Only the place in the input has changed. -/
def Moved (s t : State) : Prop := ∃ inptr taken, t = { s with inptr, taken }

theorem getByte_moved (s : State) : Keeps (Moved s) getByte :=
  ⟨fun t ⟨_, _, ht⟩ =>
    ⟨t.inptr + 1, t.taken ++ [t.inbuf[t.inptr]?.getD 0], by subst ht; rfl⟩⟩

theorem skipBytes_moved (s : State) (n : Nat) : Keeps (Moved s) (skipBytes n) := by
  induction n with
  | zero => exact Keeps.pure ()
  | succ n ih => exact Keeps.bind (getByte_moved s) fun _ => ih

theorem skipString_moved (s : State) (n : Nat) : Keeps (Moved s) (skipString n) := by
  induction n with
  | zero => exact Keeps.pure ()
  | succ n ih => exact Keeps.bind (getByte_moved s) fun _ => Keeps.ite ih (Keeps.pure ())

theorem skipName_moved (s : State) : Keeps (Moved s) skipName :=
  Keeps.get_bind fun _ _ => skipString_moved s _

theorem getMethod_moved (env : Env) (s : State) : Keeps (Moved s) (getMethod env) := by
  have hByte := getByte_moved s
  refine Keeps.bind hByte fun _ => Keeps.bind hByte fun _ => Keeps.ite ?_ (Keeps.pure _)
  refine Keeps.bind hByte fun _ => Keeps.ite ?_ (Keeps.pure _)
  refine Keeps.bind hByte fun _ => Keeps.bind (skipBytes_moved s 6) fun _ =>
    Keeps.bind (Keeps.ite (skipBytes_moved s 2) (Keeps.pure ())) fun _ => ?_
  refine Keeps.bind
    (Keeps.ite (Keeps.bind hByte fun _ => Keeps.bind hByte fun _ => skipBytes_moved s _)
    (Keeps.pure ())) fun _ => ?_
  exact Keeps.bind (Keeps.ite (skipName_moved s) (Keeps.pure ())) fun _ =>
    Keeps.bind (Keeps.ite (skipName_moved s) (Keeps.pure ())) fun _ => Keeps.pure _

theorem Reading.ahead (h : Reading fragment behind data s) : s.ahead = data := by
  obtain ⟨done, hSplit, hInptr⟩ := h.split
  have hLength : s.insize - s.inptr = data.length := by
    rw [h.insize, hSplit, List.length_append, hInptr, Nat.add_sub_cancel_left]
  rw [State.ahead, hLength, h.inbuf, hInptr, hSplit]
  refine List.ext_getElem (by simp) fun i hi hi' => ?_
  simp only [List.getElem_map, List.getElem_range', Nat.one_mul, List.append_assoc]
  rw [List.getElem?_append_right (Nat.le_add_right _ _), Nat.add_sub_cancel_left,
    List.getElem?_append_left hi', List.getElem?_eq_getElem hi']
  rfl

/-- A member with its header is read from the start of a response. -/
theorem uncompress_made {env : Env} {header : List UInt8} {blocks : List Block} {rest : List Bool}
    (hHeader : GzipHeader 8 header) (hSome : blocks ≠ []) (hValid : BlocksValid rest blocks)
    (hRest : bmax ≤ rest.length) (hBits : data.flatMap byteBits = deflated blocks ++ rest)
    (hHttp : s.httpFlag = false) (hZero : s.head.flag = 0)
    (hGoes : toUnsigned s.chunkSize ≠ (header ++ data).length ∨ blocks.length = 1)
    (hLit : s.litterBuf.isSome) (hDist : s.distBuf.isSome)
    (hFuel : bmax + (deflated blocks ++ rest).length < env.fuel) :
    Made env s.kept ((calls s.trace).map MatchCall.tokens) (s.emptied.enterAll blocks).1
      ((uncompress env (header ++ data ++ behind) (header ++ data).length).final s) := by
  let s₁ : State := { s with inbuf := header ++ data ++ behind,
                             insize := (header ++ data).length, inptr := 0 }
  let All := Made env s.kept ((calls s.trace).map MatchCall.tokens) (s.emptied.enterAll blocks).1
  obtain ⟨s₂, hMethod, hReading⟩ := follows_getMethod env (header ++ data) 8 data
    ((reads_methodWithin _ 8 data).mpr ⟨header, hHeader, rfl⟩) s₁
    (show Reading (header ++ data) behind (header ++ data) s₁ from ⟨rfl, rfl, [], rfl, rfl⟩)
  obtain ⟨inptr, taken, rfl⟩ : Moved s₁ s₂ := by
    have hMoved := (getMethod_moved env s₁).ends s₁ ⟨s₁.inptr, s₁.taken, rfl⟩
    rw [hMethod] at hMoved
    exact hMoved
  let s₃ : State := { s₁ with inptr, taken, httpFlag := true, uchunkFlag := false }
  have hAhead : s₃.ahead = data := hReading.ahead
  have hInflate : Triple (fun t => t = s₃) (inflate env) (fun _ => All) fun _ => All :=
    (inflate_made (s := s₃) hSome hValid hRest (by rw [hAhead, hBits]) hZero hGoes hLit
      hDist hFuel).conseq
      (fun _ ht => ht) (fun _ _ ht => ⟨ht.tokens, ht.gkState⟩) fun _ _ ht =>
        ⟨ht.tokens, ht.gkState⟩
  refine triple_final (S := fun t => t = s) (Triple.bind (Triple.modify_eq s) fun _ =>
    Triple.get_bind fun t ht => ?_) rfl
  obtain rfl : t = s₁ := ht
  refine Triple.bind_eq (a := 8) (S := fun t => t = s₃) ?_ (Triple.get_bind fun u hu => ?_)
  · rw [onlyIf, if_pos (Or.inl hHttp)]
    refine Triple.bind_eq (a := 8) (S := fun t => t = { s₁ with inptr, taken })
      ⟨fun t ht => ?_⟩
      (Triple.bind (Triple.modify fun t ht => ?_) fun _ => Triple.pure fun t ht => ⟨rfl, ht⟩)
    · subst ht
      rw [hMethod]
      exact ⟨rfl, rfl⟩
    · subst ht
      rfl
  · refine Triple.ite (fun _ => ?_) fun hNot => absurd (Or.inl rfl) hNot
    refine Triple.bind (hInflate.conseq (fun t ht => ht.trans hu)
      (fun _ _ ht => ht) fun _ _ ht => ht)
      fun error => ?_
    exact Triple.ite (fun _ => Triple.modify fun _ ht => ⟨ht.tokens, ht.gkState⟩) fun _ =>
      Triple.pure fun _ ht => ht

variable (behind) in
/-- A member with room, in one fragment at the start of a response, blocks the connection exactly
when the text of its blocks with codes contains a pattern, if no call takes a deep byte for a
shallow one. -/
theorem uncompress_blocks_iff {acsm acsm' : AcsmxStruct} (hCompile : acsmcompile acsm = some acsm')
    (hNonempty : ∀ p ∈ acsm.acsmPatterns, p ≠ []) (mem : Nat → Acch.Memory)
    {header : List UInt8} {blocks : List Block} {rest : List Bool} {text : List UInt8}
    (hHeader : GzipHeader 8 header) (hSome : blocks ≠ []) (hValid : BlocksValid rest blocks)
    (hRest : bmax ≤ rest.length) (hBits : data.flatMap byteBits = deflated blocks ++ rest)
    (hHttp : s.httpFlag = false) (hZero : s.head.flag = 0)
    (hGoes : toUnsigned s.chunkSize ≠ (header ++ data).length ∨ blocks.length = 1)
    (hLit : s.litterBuf.isSome) (hDist : s.distBuf.isSome) (hRoom : HasRoom blocks)
    (hText : symbolsText [] (blocks.flatMap Block.symbols) = some text)
    (hFits : text.length < wsize - 1)
    (hShallow : ∀ i symbols, (soFar [] blocks)[i]? = some symbols →
      TakesShallow acsm.acsmPatterns (mem i) symbols text) :
    ∃ n, ∀ env : Env, n ≤ env.fuel → s.gkState ≠ env.gkStateBlock →
      (∀ i symbols, (soFar [] blocks)[i]? = some symbols →
        env.keywordMatch (pairs symbols) = acchFinds acsm' (mem i) (pairs symbols)) →
      (((uncompress env (header ++ data ++ behind) (header ++ data).length).final s).gkState =
          env.gkStateBlock ↔ Contains acsm.acsmPatterns text) := by
  refine ⟨bmax + (deflated blocks ++ rest).length + 1, fun env hEnough hOpen hMatch => ?_⟩
  have hMade : Made env s.kept _ _ ((uncompress env (header ++ data ++ behind) _).final s) :=
    uncompress_made hHeader hSome hValid hRest hBits hHttp hZero hGoes hLit hDist hEnough
  have hShort : (s.emptied.enterAll blocks).1 = (soFar [] blocks).map pairs :=
    enterAll_short ⟨rfl, rfl⟩ (by simpa using hRoom.room) hRoom.rows rfl
  rw [hMade.gkState, hShort]
  exact verdict_iff hCompile hNonempty hMatch hOpen hValid hText hFits hShallow

/-- The member of the texts `xxxxxxxxab` and `xxxxxxxxabcd` in two blocks, the second with a copy of
the first.  The first call, on zeroed arrays, leaves those that the second finds. -/
theorem uncompress_blocks_iff_abcd :
    let first : List Symbol :=
      [.literal 120, .literal 120, .literal 120, .literal 120, .literal 120,
        .literal 120, .literal 120,
        .literal 120, .literal 97, .literal 98]
    let second : List Symbol := [.copy 7 0 6 1, .literal 99, .literal 100]
    let s : State := { State.ofBlock [] with httpFlag := false }
    let header : List UInt8 := [0x1f, 0x8b, 8, 0, 0, 0, 0, 0, 0, 3]
    let data : List UInt8 :=
      [170, 168, 168, 168, 168, 168, 168, 168, 72, 76, 2, 12, 193, 74, 78, 1, 0, 0, 0]
    let left : Acch.Memory := ⟨fun i => [120, 120, 120, 120, 120, 120, 120, 120, 97, 98].getD i 0,
      fun i => if i < 10 then 2 else 0, 10⟩
    ∃ acsm' env, acsmcompile (Acsm.acsmaddPattern Acsm.acsmnew [97, 98, 99, 100]) = some acsm' ∧
      env.keywordMatch (pairs first) = acchFinds acsm' Acch.zeroMemory (pairs first) ∧
      env.keywordMatch (pairs (first ++ second)) =
        acchFinds acsm' left (pairs (first ++ second)) ∧
      ((uncompress env (header ++ data ++ []) (header ++ data).length).final s).gkState =
        env.gkStateBlock := by
  intro first second s header data left
  obtain ⟨acsm', -, -, hCompile, -⟩ :=
    Acch.acsmcompile_holds (Acsm.acsmaddPattern Acsm.acsmnew [97, 98, 99, 100])
  let mem : Nat → Acch.Memory := fun i => if i = 0 then Acch.zeroMemory else left
  have hHeader : GzipHeader 8 ([0x1f, 0x8b, 8, 0] ++ [0, 0, 0, 0, 0, 3] ++ [] ++ [] ++ [] ++ []) :=
    .deflated (Or.inl rfl) rfl (Or.inr ⟨by decide, rfl⟩) (Or.inr ⟨by decide, rfl⟩)
      (Or.inr ⟨by decide, rfl⟩) (Or.inr ⟨by decide, rfl⟩)
  have hFirst : ∀ s ∈ first, s.Valid := by decide
  have hSecond : ∀ s ∈ second, s.Valid := by decide
  have hBits : data.flatMap byteBits =
      deflated [.fixed first, .fixed second] ++ List.replicate 22 false := by decide +kernel
  have hCalls : ∀ {P : Nat → List Symbol → Prop}, P 0 first → P 1 (first ++ second) →
      ∀ i symbols, (soFar [] [.fixed first, .fixed second])[i]? = some symbols →
        P i symbols := by
    rintro P h₀ h₁ (_ | _ | i) symbols hCall
    · exact Option.some.inj hCall ▸ h₀
    · exact Option.some.inj hCall ▸ h₁
    · cases hCall
  obtain ⟨n, h⟩ := uncompress_blocks_iff (s := s) [] hCompile (by decide) mem hHeader
    (List.cons_ne_nil _ _) (show BlocksValid _ [.fixed first, .fixed second] from
      ⟨hFirst, hSecond, trivial⟩) (by decide) hBits rfl rfl (Or.inl (by decide))
    rfl rfl ⟨by decide, by decide⟩
    (show symbolsText [] (first ++ second) = some (List.replicate 8 120 ++ [97, 98] ++
      (List.replicate 8 120 ++ [97, 98, 99, 100])) by decide +kernel) (by decide +kernel)
    (hCalls (by decide +kernel) (by decide +kernel))
  let env : Env :=
    ⟨fun tokens => acchFinds acsm' (if tokens = pairs first then Acch.zeroMemory else left)
    tokens, 1, pure (), 0, n⟩
  have hOpen : s.gkState ≠ env.gkStateBlock := show (0 : Int) ≠ 1 by decide
  exact ⟨acsm', env, hCompile, rfl, rfl,
    (h env (Nat.le_refl n) hOpen (hCalls rfl rfl)).mpr (by decide +kernel)⟩

end Member

end Shutter.Gunzip
