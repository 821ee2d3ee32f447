import Shutter.Gunzip.Codeword
import Shutter.Gunzip.Flushes.Keywords

/-! The symbols of a compressed block, the bits that they are written with, and the tokens that
`inflate_codes` reads from these bits. -/

namespace Shutter.Gunzip

open Shutter.Library

/-- A literal, or a copy: its length code and extra bits, and its distance code and extra bits. -/
inductive Symbol where
  | literal (c : UInt8)
  | copy (i x j y : Nat)
  deriving DecidableEq

namespace Symbol

/-- The codes are among those of the format, and the extra bits are as many as they have. -/
def Valid : Symbol → Prop
  | literal _ => True
  | copy i x j y => i < 29 ∧ x < 2 ^ (cplext[i]?.getD 0) ∧ j < 30 ∧
      y < 2 ^ (cpdext[j]?.getD 0)

instance : DecidablePred Valid
  | literal _ => .isTrue trivial
  | copy i x j y => inferInstanceAs (Decidable
      (i < 29 ∧ x < 2 ^ (cplext[i]?.getD 0) ∧ j < 30 ∧ y < 2 ^ (cpdext[j]?.getD 0)))

/-- The codes of the symbol are in use. -/
def Coded (ll dl : List Nat) : Symbol → Prop
  | literal c => 0 < codeLength ll c.toNat
  | copy i _ j _ => 0 < codeLength ll (257 + i) ∧ 0 < codeLength dl j

/-- The bits of the symbol, for the lengths of the two codes. -/
def bits (ll dl : List Nat) : Symbol → List Bool
  | literal c => codeword ll c.toNat
  | copy i x j y => codeword ll (257 + i) ++ (bitsOf (cplext[i]?.getD 0) x ++
      (codeword dl j ++ bitsOf (cpdext[j]?.getD 0) y))

/-- The length of a copy. -/
def copyLength (i x : Nat) : Nat := cplens[i]?.getD 0 + x

/-- The distance of a copy. -/
def copyDistance (j y : Nat) : Nat := cpdist[j]?.getD 0 + y

/-- The token of the symbol. -/
def token : Symbol → Token
  | literal c => .literal c
  | copy i x j y => .copy (copyLength i x - 3).toUInt8 (copyDistance j y) (cpdext[j]?.getD 0)

end Symbol

/-- The bits of a block behind its header. -/
def blockBits (ll dl : List Nat) (symbols : List Symbol) : List Bool :=
  symbols.flatMap (Symbol.bits ll dl) ++ codeword ll 256

section Tables

/-- The bounds of the constants: the extra bits of a length, a length, the extra bits of a distance,
and a distance. -/
theorem length_bounds {i : Nat} (h : i < 29) : cplext[i]?.getD 0 ≤ 5 ∧
    3 ≤ cplens[i]?.getD 0 ∧
    cplens[i]?.getD 0 + 2 ^ (cplext[i]?.getD 0) ≤ 259 := by
  revert i
  decide

theorem distance_bounds {j : Nat} (h : j < 30) : cpdext[j]?.getD 0 ≤ 13 ∧
    cpdist[j]?.getD 0 + 2 ^ (cpdext[j]?.getD 0) ≤ 32769 := by
  revert j
  decide

theorem entry_literal (c : UInt8) (n : Nat) :
    entry 257 (some cplens) (some cplext) n [c.toNat] = some ⟨16, n, c.toNat, 0⟩ := by
  have hByte : c.toNat < 256 := c.toNat_lt
  rw [entry, if_pos (by omega), if_pos hByte]

theorem entry_end (n : Nat) :
    entry 257 (some cplens) (some cplext) n [256] = some ⟨15, n, 256, 0⟩ := rfl

theorem entry_length {i : Nat} (h : i < 29) (n : Nat) :
    entry 257 (some cplens) (some cplext) n [257 + i] =
      some ⟨cplext[i]?.getD 0, n, cplens[i]?.getD 0, 0⟩ := by
  have hIndex : 257 + i - 257 = i := Nat.add_sub_cancel_left ..
  simp only [entry, hIndex]
  rw [if_neg (by omega), if_neg (by omega)]
  rfl

theorem entry_distance {j : Nat} (h : j < 30) (n : Nat) :
    entry 0 (some cpdist) (some cpdext) n [j] =
      some ⟨cpdext[j]?.getD 0, n, cpdist[j]?.getD 0, 0⟩ := by
  simp only [entry, Nat.sub_zero]
  rw [if_neg (by omega), if_neg (by omega)]
  rfl

end Tables

section Read

variable {tl td : HuftPtr} {bl bd fuel : Nat} {ll dl : List Nat} {rest : List Bool} {src : Source}

/-- The extra bits of a code. -/
theorem extra_stream {n x : Nat} (hTidy : src.Tidy) (hn : n < 25) (hx : x < 2 ^ n)
    (hStream : src.stream = bitsOf n x ++ rest) :
    ∃ src', src.fill n = some src' ∧ src'.bits n = x ∧ (src'.dump n).stream = rest ∧
      (src'.dump n).Tidy := by
  have hLength : (bitsOf n x).length = n := bitsOf_length n x
  obtain ⟨src', hFill, hSame, hRead, hTidy'⟩ := fill_stream hTidy hn
    (by rw [hStream, List.length_append]; omega)
  obtain ⟨hDrop, hTidy'', -⟩ := dump_stream hTidy' hRead
  refine ⟨src', hFill, ?_, ?_, hTidy''⟩
  · rw [bits_stream hRead, hSame, hStream, List.take_left' hLength, ofBits_bitsOf,
      Nat.mod_eq_of_lt hx]
  · rw [hDrop, hSame, hStream, List.drop_left' hLength]

/-- The length of a copy, less 3, in a byte. -/
theorem length_byte {i : Nat} (hi : i < 29) (x : Nat) :
    (cplens[i]?.getD 0 + x + 2 ^ 16 - 3).toUInt8 = (Symbol.copyLength i x - 3).toUInt8 := by
  obtain ⟨-, hLow, -⟩ := length_bounds hi
  have hSplit : cplens[i]?.getD 0 + x + 2 ^ 16 - 3 = Symbol.copyLength i x - 3 + 2 ^ 16 := by
    rw [Symbol.copyLength]
    omega
  refine UInt8.toNat_inj.mp ?_
  rw [hSplit, UInt8.toNat_ofNat', UInt8.toNat_ofNat']
  omega

theorem distance_lt {j y : Nat} (hj : j < 30) (hy : y < 2 ^ (cpdext[j]?.getD 0)) :
    Symbol.copyDistance j y < 2 ^ 16 := by
  obtain ⟨-, hHigh⟩ := distance_bounds hj
  rw [Symbol.copyDistance]
  omega

/-- The tables decode the bits of a block to the tokens of its symbols, and the bits behind it are
next. -/
theorem decodes_blockBits (hL : Reads tl bl ll 257 (some cplens) (some cplext))
    (hD : Reads td bd dl 0 (some cpdist) (some cpdext)) (hEnd : 0 < codeLength ll 256)
    {symbols : List Symbol} (hSymbols : ∀ s ∈ symbols, s.Valid ∧ s.Coded ll dl)
    (hTidy : src.Tidy) (hStream : src.stream = blockBits ll dl symbols ++ rest)
    (hRest : bmax ≤ rest.length) (hFuel : bmax < fuel) : ∃ out,
    Decodes tl td bl bd fuel src (symbols.map Symbol.token) out ∧
      out.stream = rest ∧ out.Tidy := by
  induction symbols generalizing src with
  | nil =>
    obtain ⟨t, src', n, hCode, hEntry, hNext, hTidy'⟩ := hL 256 hEnd (fun n r hr => by
      obtain rfl := Option.some.inj ((entry_end n).symm.trans hr)
      exact Nat.le_succ 15) rest src hTidy hStream hRest fuel hFuel
    obtain hGet := Option.some.inj ((entry_end n).symm.trans hEntry)
    exact ⟨src', .stop hCode (by rw [← hGet]), hNext, hTidy'⟩
  | cons s symbols ih =>
    obtain ⟨⟨hValid, hCoded⟩, hOthers⟩ := List.forall_mem_cons.mp hSymbols
    have hSplit : src.stream = s.bits ll dl ++ (blockBits ll dl symbols ++ rest) := by
      rw [hStream, blockBits, blockBits, List.flatMap_cons]
      simp only [List.append_assoc]
    have hMore : bmax ≤ (blockBits ll dl symbols ++ rest).length := by
      rw [List.length_append]
      omega
    cases s with
    | literal c =>
      obtain ⟨t, src', n, hCode, hEntry, hNext, hTidy'⟩ := hL c.toNat hCoded (fun n r hr => by
        obtain rfl := Option.some.inj ((entry_literal c n).symm.trans hr)
        exact Nat.le_refl 16) _ src hTidy hSplit hMore fuel hFuel
      have hGet := Option.some.inj ((entry_literal c n).symm.trans hEntry)
      obtain ⟨out, hDecodes, hOut⟩ := ih hOthers hTidy' hNext
      have hTokens := Decodes.literal hCode (by rw [← hGet]) hDecodes
      rw [← hGet] at hTokens
      exact ⟨out, by simpa [Symbol.token] using hTokens, hOut⟩
    | copy i x j y =>
      obtain ⟨hi, hx, hj, hy⟩ := hValid
      obtain ⟨hExtra, hLow, hHigh⟩ := length_bounds hi
      obtain ⟨hExtra', hHigh'⟩ := distance_bounds hj
      simp only [Symbol.bits, List.append_assoc] at hSplit
      have hFar : ∀ front : List Bool, bmax ≤
        (front ++ (blockBits ll dl symbols ++ rest)).length :=
        fun front => by
          rw [List.length_append]
          omega
      obtain ⟨t, src₁, n, hCode, hEntry, hNext, hTidy₁⟩ :=
        hL (257 + i) hCoded.1 (fun n r hr => by
        obtain rfl := Option.some.inj ((entry_length hi n).symm.trans hr)
        exact Nat.le_trans hExtra (by decide)) _ src hTidy hSplit
        (by simpa only [List.append_assoc] using hFar (_ ++ (_ ++ _))) fuel hFuel
      have hGet := Option.some.inj ((entry_length hi n).symm.trans hEntry)
      obtain ⟨src₂, hFill, hBits, hNext₂, hTidy₂⟩ :=
        extra_stream hTidy₁ (by omega) hx hNext
      obtain ⟨t', src₃, n', hCode', hEntry', hNext₃, hTidy₃⟩ :=
        hD j hCoded.2 (fun n r hr => by
        obtain rfl := Option.some.inj ((entry_distance hj n).symm.trans hr)
        exact Nat.le_trans hExtra' (by decide)) _ _ hTidy₂ hNext₂ (hFar _) fuel hFuel
      have hGet' := Option.some.inj ((entry_distance hj n').symm.trans hEntry')
      obtain ⟨src₄, hFill', hBits', hNext₄, hTidy₄⟩ :=
        extra_stream hTidy₃ (by omega) hy hNext₃
      obtain ⟨out, hDecodes, hOut⟩ := ih hOthers hTidy₄ hNext₄
      have hTokens := Decodes.copy hCode (by rw [← hGet]; simp only; omega)
        (by rw [← hGet]; simp only; omega)
        (by rw [← hGet]; exact hFill) (by rw [← hGet]; exact hCode')
          (by rw [← hGet']; exact hFill')
        (by rw [← hGet']; exact hDecodes)
      have hDistance := distance_lt hj hy
      rw [Symbol.copyDistance] at hDistance
      rw [← hGet, ← hGet'] at hTokens
      simp only [hBits, hBits', length_byte hi x, Nat.mod_eq_of_lt hDistance] at hTokens
      exact ⟨out, hTokens, hOut⟩

end Read

/-! ### States -/

/-- The next bits are those of `str`, at flag 0, and `k` is kept. -/
structure Coming (k : Kept) (str : List Bool) (s : State) : Prop where
  tidy : s.source.Tidy
  stream : s.source.stream = str
  flag_eq : s.flag = 0
  kept : s.kept = k

/-- Behind a block the next bits are those of `str`, if the chunk goes on behind the input. -/
structure Past (k : Kept) (str : List Bool) (s : State) : Prop where
  kept : s.kept = { k with chunkSize := s.chunkSize }
  next : toUnsigned k.chunkSize ≠ k.insize → Coming k str s

section States

variable {env : Env} {k : Kept} {b : Buffers} {symbols : List Symbol} {ll dl : List Nat}
  {rest : List Bool}

theorem Coming.congr {s t : State} {str : List Bool} (h : Coming k str s)
    (hSource : t.source = s.source) (hFlag : t.flag = s.flag) (hKept : t.kept = s.kept) :
    Coming k str t :=
  ⟨hSource ▸ h.tidy, hSource ▸ h.stream, hFlag.trans h.flag_eq, hKept.trans h.kept⟩

theorem Coming.input {s : State} {str : List Bool} (h : Coming k str s) :
    s.source.input.length ≤ str.length := by
  rw [← h.stream, stream_length]
  omega

theorem Coming.past {s : State} {str : List Bool} (h : Coming k str s) : Past k str s := by
  have hChunk : s.chunkSize = k.chunkSize := congrArg Kept.chunkSize h.kept
  exact ⟨by rw [hChunk]; exact h.kept, fun _ => h⟩

theorem Past.gkState {s : State} {str : List Bool} (h : Past k str s) : s.gkState = k.gkState :=
  congrArg Kept.gkState h.kept

theorem symbols_length (h : ∀ s ∈ symbols, s.Coded ll dl) :
    symbols.length ≤ (blockBits ll dl symbols).length := by
  have hAll : symbols.length ≤ (symbols.flatMap (Symbol.bits ll dl)).length := by
    induction symbols with
    | nil => exact Nat.zero_le _
    | cons s symbols ih =>
      obtain ⟨hCoded, hOthers⟩ := List.forall_mem_cons.mp h
      have hSome : 0 < (s.bits ll dl).length := by
        cases s with
        | literal c => exact (codeword_length ..).symm ▸ hCoded
        | copy i x j y =>
          rw [Symbol.bits, List.length_append, codeword_length]
          exact Nat.add_pos_left hCoded.1 _
      have := ih hOthers
      rw [List.flatMap_cons, List.length_append, List.length_cons]
      omega
  rw [blockBits, List.length_append]
  omega

/-- The symbols of a block, from its tables. -/
theorem stored_symbols {tl td : HuftPtr} {bl bd : Nat}
    (hL : Reads tl bl ll 257 (some cplens) (some cplext))
    (hD : Reads td bd dl 0 (some cpdist) (some cpdext)) (hEnd : 0 < codeLength ll 256)
    (hSymbols : ∀ s ∈ symbols, s.Valid ∧ s.Coded ll dl) (hRest : bmax ≤ rest.length)
    (hFuel : bmax + (blockBits ll dl symbols ++ rest).length < env.fuel) (hZero : k.flag = 0)
    (hLoop : b.loop = 0 ∧ b.loopFlag = 0) :
    Stored env k b (Coming k (blockBits ll dl symbols ++ rest)) (codesThenMatch env tl td bl bd)
      (b.block (symbols.map Symbol.token)) (Past k rest) := by
  intro made
  refine Triple.of_state fun s ⟨hHolding, hComing⟩ => ?_
  have hInput := hComing.input
  have hCount := symbols_length fun s hs => (hSymbols s hs).2
  have hLength : (blockBits ll dl symbols ++ rest).length =
      (blockBits ll dl symbols).length + rest.length := List.length_append
  obtain ⟨out, hDecodes, hOut, hTidy⟩ :=
    decodes_blockBits hL hD hEnd hSymbols hComing.tidy hComing.stream hRest
      (show bmax < env.fuel by omega)
  refine (stored_codesThenMatch hDecodes (by omega) (by rw [List.length_map]; omega)
    hLoop made).conseq
    (fun t ht => ?_) (fun v t ht => ?_) fun _ _ ht => ht
  · subst ht
    exact ⟨hHolding, rfl, hComing.flag_eq, hComing.kept⟩
  · refine ht.imp_left fun ⟨hv, b', hSome, hNone, hHolding', hBehind⟩ =>
      ⟨hv, b', hSome, hNone, hHolding', ?_⟩
    have hKept := hBehind.kept
    rw [← hZero] at hKept
    refine ⟨hKept, fun hGoes => ?_⟩
    obtain ⟨hSource, hChunk⟩ := hBehind.next hGoes
    exact ⟨hSource ▸ hTidy, by rw [hSource, hOut], hBehind.flag_eq, by rw [hKept, hChunk]⟩

end States

/-! ### Fixed codes -/

/-- The lengths of the distance codes of `inflate_fixed`. -/
def fixedDistances : List Nat := List.replicate 30 5

theorem codeLength_pos {b : List Nat} {v : Nat} (hZero : 0 ∉ b) (hv : v < b.length) :
    0 < codeLength b v := by
  rw [codeLength, List.getElem?_eq_getElem hv]
  exact Nat.pos_of_ne_zero fun h => hZero (h ▸ List.getElem_mem hv)

theorem mem_fixedLengths {k : Nat} (h : k ∈ fixedLengths) : 7 ≤ k ∧ k ≤ 9 := by
  simp only [fixedLengths, List.mem_append, List.mem_replicate] at h
  omega

theorem fixedLengths_length : fixedLengths.length = 288 := by
  simp only [fixedLengths, List.length_append, List.length_replicate]

theorem kraft_append (max : Nat) (b b' : List Nat) :
    kraft max (b ++ b') = kraft max b + kraft max b' := by
  rw [kraft, List.map_append, List.sum_append]
  rfl

theorem kraft_replicate (max n k : Nat) (hk : k ≠ 0) :
    kraft max (List.replicate n k) = n * 2 ^ (max - k) := by
  rw [kraft, List.map_replicate, if_neg hk, List.sum_replicate, nsmul_eq_mul, Nat.cast_id]

/-- The entry of a value among the first 31 of the lists. -/
theorem enters_of_le {k v : Nat} {d e : List Nat} (h : v ≤ k + 30) :
    Enters k (some d) (some e) [v] := by
  intro n
  by_cases hSimple : v < k
  · simp only [entry, if_pos hSimple]
    rfl
  · have hNear : ¬v - k > 30 := by omega
    simp only [entry, if_neg hSimple, if_neg hNear]
    rfl

/-- The tables of `inflate_fixed`. -/
theorem fixed_tables (stale : Nat) : ∃ tl bl td bd r,
    huftBuild stale fixedLengths 257 (some cplens) (some cplext) 7 = ⟨0, some (some tl), bl⟩ ∧
    huftBuild stale (List.replicate 30 5) 0 (some cpdist) (some cpdext) 5 =
      ⟨r, some (some td), bd⟩ ∧
    r ≤ 1 ∧ Reads tl bl fixedLengths 257 (some cplens) (some cplext) ∧
    Reads td bd fixedDistances 0 (some cpdist) (some cpdext) := by
  have hLits : ∀ k ∈ fixedLengths, k ≤ bmax := fun k hk =>
    Nat.le_trans (mem_fixedLengths hk).2 (by decide)
  have hDists : ∀ k ∈ List.replicate 30 5, k = 5 := fun k hk => (List.mem_replicate.mp hk).2
  have hKraft : kraft bmax fixedLengths = 2 ^ bmax := by
    simp only [fixedLengths, kraft_append]
    rw [kraft_replicate _ _ _ (by decide), kraft_replicate _ _ _ (by decide),
      kraft_replicate _ _ _ (by decide), kraft_replicate _ _ _ (by decide)]
    rfl
  have hKraft' : kraft bmax (List.replicate 30 5) ≤ 2 ^ bmax := by
    rw [kraft_replicate _ _ _ (by decide)]
    decide
  obtain ⟨r, tl, bl, hBuild, -, hZero⟩ :=
    huftBuild_some stale 257 7 (some cplens) (some cplext) hLits
    ⟨8, List.mem_append_right _ (List.mem_replicate.mpr ⟨by decide, rfl⟩), by decide⟩
      (Nat.le_of_eq hKraft)
    (Or.inl hKraft) fun v hv _ => enters_of_le (by rw [fixedLengths_length] at hv; omega)
  obtain rfl := hZero hKraft
  obtain ⟨r, td, bd, hBuild', hCode, -⟩ := huftBuild_some stale 0 5 (some cpdist) (some cpdext)
    (fun k hk => by rw [hDists k hk]; decide)
    ⟨5, by simp, by decide⟩ hKraft' (Or.inr (by simp))
    fun v hv _ => enters_of_le (by rw [List.length_replicate] at hv; omega)
  refine ⟨tl, bl, td, bd, r, hBuild, hBuild', hCode, huftBuild_reads hLits hBuild
    (Or.inl fun k hk => ?_),
    huftBuild_reads (fun k hk => by rw [hDists k hk]; decide) hBuild' (Or.inl fun k hk => ?_)⟩
  · exact Nat.le_trans (mem_fixedLengths hk).2 (by decide)
  · rw [hDists k hk]
    decide

section Fixed

variable {env : Env} {k : Kept} {b : Buffers} {symbols : List Symbol} {rest : List Bool}

theorem fixed_coded {s : Symbol} (h : s.Valid) : s.Coded fixedLengths fixedDistances := by
  have hLits : 0 ∉ fixedLengths := fun hMem => absurd (mem_fixedLengths hMem).1 (by decide)
  have hDists : 0 ∉ fixedDistances := fun hMem =>
    absurd (List.mem_replicate.mp hMem).2 (by decide)
  cases s with
  | literal c =>
    have hByte : c.toNat < 256 := c.toNat_lt
    exact codeLength_pos hLits (by rw [fixedLengths_length]; omega)
  | copy i x j y =>
    obtain ⟨hi, -, hj, -⟩ := h
    exact ⟨codeLength_pos hLits (by rw [fixedLengths_length]; omega),
      codeLength_pos hDists (by rw [fixedDistances, List.length_replicate]; exact hj)⟩

/-- A block with the fixed codes: the tokens of its symbols are stored and matched. -/
theorem stored_inflateFixed (hSymbols : ∀ s ∈ symbols, s.Valid) (hRest : bmax ≤ rest.length)
    (hFuel : bmax + (blockBits fixedLengths fixedDistances symbols ++ rest).length < env.fuel)
    (hZero : k.flag = 0) (hLoop : b.loop = 0 ∧ b.loopFlag = 0) :
    Stored env k b (Coming k (blockBits fixedLengths fixedDistances symbols ++ rest))
      (inflateFixed env)
      (b.block (symbols.map Symbol.token)) (Past k rest) := by
  obtain ⟨tl, bl, td, bd, r, hBuild, hBuild', hCode, hL, hD⟩ := fixed_tables env.stale
  have hEnd : 0 < codeLength fixedLengths 256 :=
    codeLength_pos (fun hMem => absurd (mem_fixedLengths hMem).1 (by decide))
      (by rw [fixedLengths_length]; decide)
  have hBlock := stored_symbols (k := k) (b := b) hL hD hEnd
    (fun s hs => ⟨hSymbols s hs, fixed_coded (hSymbols s hs)⟩) hRest hFuel hZero hLoop
  let Before := Coming k (blockBits fixedLengths fixedDistances symbols ++ rest)
  refine Stored.call ?_
  rw [hBuild, hBuild']
  refine Stored.after (Q := fun _ s => Before s ∧ s.head.tl = some tl)
    (fun made => Triple.modify fun s hs =>
    ⟨hs.1.congr ⟨rfl, rfl, rfl, rfl, rfl⟩, hs.2.congr rfl rfl rfl, rfl⟩) fun _ made => ?_
  refine Triple.ite (fun hError => absurd rfl hError) fun _ => ?_
  refine Triple.bind (Q := fun _ s => Holding b made s ∧ Before s ∧ s.head.tl = some tl ∧
    s.head.td = some td)
    (Triple.modify fun s hs =>
      ⟨hs.1.congr ⟨rfl, rfl, rfl, rfl, rfl⟩, hs.2.1.congr rfl rfl rfl, hs.2.2, rfl⟩)
    fun _ => Triple.ite (fun hError => absurd hCode (Nat.not_le_of_gt hError)) fun _ => ?_
  refine Triple.get_bind' fun s hs => ?_
  rw [hs.2.2.1, hs.2.2.2]
  exact (hBlock made).conseq (fun _ hs => ⟨hs.1, hs.2.1⟩) (fun _ _ hs => hs) fun _ _ hs => hs

end Fixed

end Shutter.Gunzip
