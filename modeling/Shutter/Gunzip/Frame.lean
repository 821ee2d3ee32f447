import Shutter.Gunzip.Blocks
import Shutter.Gunzip.Response

/-! What the inflater leaves alone: it moves `current_block` in `waitbuf` only. -/

namespace Shutter.Gunzip

open Shutter.Library
open Shutter.Stream (Segment)

section Keeps

variable {P : State → Prop}

theorem keeps_ret {α : Type} (r : Nat) : Keeps P (ret r : Code α) := Keeps.throw _

theorem keeps_bits (n : Nat) : Keeps P (bits n) := Keeps.get_bind fun _ _ => Keeps.pure _

theorem keeps_onlyIf {α : Type} {p : Prop} [Decidable p] {a : α} {x : Code α} (h : Keeps P x) :
    Keeps P (onlyIf p a x) := Keeps.ite h (Keeps.pure _)

theorem keeps_fromFlag {α : Type} {flag : Nat} {a : α} {x : Code α} (h : Keeps P x) :
    Keeps P (fromFlag flag a x) := Keeps.get_bind fun _ _ => keeps_onlyIf h

theorem keeps_call {body : Code Nat} (h : Keeps P body) : Keeps P (call body) :=
  (triple_call (S := P) (h.conseq (fun _ hs => hs) (fun _ _ hs => hs)
    fun _ _ hs => ⟨fun _ _ => hs, fun _ => hs⟩)).conseq (fun _ hs => hs) (fun _ _ hs => hs)
    fun _ _ hs => hs.2

theorem triple_final {α : Type} {S : State → Prop} {x : Code α}
    (h : Triple S x (fun _ => P) fun _ => P) {s : State} (hs : S s) : P (x.final s) := by
  have hEnds := h.ends s hs
  unfold Code.final
  cases hRun : x s with
  | ok a s' =>
    rw [hRun] at hEnds
    exact hEnds
  | error e s' =>
    rw [hRun] at hEnds
    exact hEnds

theorem keeps_final {α : Type} {x : Code α} (h : Keeps P x) {s : State} (hs : P s) :
    P (x.final s) := triple_final h hs

end Keeps

/-- The second state has the blocks, the `current_block` and the buffers of the first, which may
have other contents, and the trace of the first and what has been added to it. -/
structure SameFrame (s s' : State) : Prop where
  currentBlock : s'.currentBlock = s.currentBlock
  down : s'.down = s.down
  litterBuf : s'.litterBuf.map Buffer.address = s.litterBuf.map Buffer.address
  distBuf : s'.distBuf.map Buffer.address = s.distBuf.map Buffer.address
  trace : s.trace <+: s'.trace

theorem SameFrame.untraced {s s' : State} (hBlock : s'.currentBlock = s.currentBlock)
    (hDown : s'.down = s.down) (hLit : s'.litterBuf = s.litterBuf) (hDist : s'.distBuf = s.distBuf)
    (hTrace : s'.trace = s.trace) : SameFrame s s' :=
  ⟨hBlock, hDown, by rw [hLit], by rw [hDist], hTrace ▸ List.prefix_rfl⟩

/-- A condition on what `SameFrame` keeps, which `waitbuf` keeps, too. -/
structure Framed (env : Env) (P : State → Prop) : Prop where
  congr : ∀ s s' : State, SameFrame s s' → P s → P s'
  waitbuf : Keeps P env.waitbuf

namespace Framed

variable {env : Env} {P : State → Prop} (h : Framed env P)
include h

theorem modify {f : State → State} (hf : ∀ s, SameFrame s (f s)) :
    Keeps P (modify f : Code Unit) :=
  Keeps.modify fun s => h.congr s (f s) (hf s)

theorem modifyHead (f : Head → Head) : Keeps P (modifyHead f) := h.modify fun _ =>
    .untraced rfl rfl rfl rfl rfl

theorem setFlag (flag : Nat) : Keeps P (setFlag flag) := h.modify fun _ =>
    .untraced rfl rfl rfl rfl rfl

theorem dumpBits (n : Nat) : Keeps P (dumpBits n) := h.modify fun _ => .untraced rfl rfl rfl rfl rfl

theorem dropTables : Keeps P dropTables := h.modifyHead _

theorem record (e : Event) : Keeps P (record e) :=
  h.modify fun _ => ⟨rfl, rfl, rfl, rfl, List.prefix_append _ _⟩

theorem recordToken (e : Nat → Nat → Event) : Keeps P (recordToken e) :=
  h.modify fun _ => ⟨rfl, rfl, rfl, rfl, List.prefix_append _ _⟩

theorem putLit (x : UInt8) : Keeps P (putLit x) :=
  h.modify fun s => ⟨rfl, rfl, by cases s.litterBuf <;> simp [Buffer.set], rfl, List.prefix_rfl⟩

theorem putDist (x : Nat) : Keeps P (putDist x) :=
  h.modify fun s => ⟨rfl, rfl, rfl, by cases s.distBuf <;> simp [Buffer.set], List.prefix_rfl⟩

theorem needBits (n fuel : Nat) : Keeps P (needBits env n fuel) := by
  induction fuel with
  | zero => exact Keeps.throw _
  | succ fuel ih =>
    unfold Gunzip.needBits
    refine Keeps.get_bind fun s hs => Keeps.ite (Keeps.ite ?_ ?_) (Keeps.pure _)
    · exact Keeps.bind ⟨fun _ _ => h.congr s _ (.untraced rfl rfl rfl rfl rfl) hs⟩ fun _ => ih
    · refine Keeps.bind (h.modifyHead _) fun _ => Keeps.bind h.waitbuf fun _ =>
        Keeps.get_bind fun t _ => Keeps.bind (keeps_onlyIf ?_) fun _ => ih
      exact Keeps.bind (h.modify fun _ => .untraced rfl rfl rfl rfl rfl) fun _ =>
        Keeps.bind (h.record _) fun _ => keeps_ret 0

theorem keywordMatch : Keeps P (keywordMatch env) :=
  Keeps.get_bind fun _ _ => Keeps.bind (h.record _) fun _ => Keeps.pure _

theorem flush (v : Codes) : Keeps P (flush env v) := by
  refine Keeps.bind h.keywordMatch fun found => Keeps.ite ?_ ?_
  · exact Keeps.bind (h.modify fun _ => .untraced rfl rfl rfl rfl rfl) fun _ => keeps_ret 1
  · refine Keeps.bind (h.modify fun _ => .untraced rfl rfl rfl rfl rfl) fun _ =>
      Keeps.ite ?_ (Keeps.pure _)
    exact Keeps.bind (h.modifyHead _) fun _ => keeps_ret 1

theorem descendLit (fuel : Nat) (v : Codes) : Keeps P (descendLit env fuel v) := by
  induction fuel generalizing v with
  | zero => exact Keeps.throw _
  | succ fuel ih =>
    refine Keeps.ite (keeps_ret 1) (Keeps.bind (h.dumpBits _) fun _ => Keeps.get_bind fun _ _ => ?_)
    refine Keeps.bind (h.setFlag 10) fun _ => Keeps.bind (h.modifyHead _) fun _ =>
      Keeps.bind (h.needBits _ _) fun _ => Keeps.get_bind fun _ _ => Keeps.ite (keeps_ret 1) ?_
    exact Keeps.bind (h.setFlag 0) fun _ => Keeps.bind (keeps_bits _) fun _ =>
      keeps_onlyIf (ih _)

theorem descendDist (fuel : Nat) (v : Codes) : Keeps P (descendDist env fuel v) := by
  induction fuel generalizing v with
  | zero => exact Keeps.throw _
  | succ fuel ih =>
    refine Keeps.ite (keeps_ret 1) (Keeps.get_bind fun _ _ => ?_)
    refine Keeps.bind (keeps_onlyIf (Keeps.bind (h.dumpBits _) fun _ => Keeps.pure _)) fun _ => ?_
    refine Keeps.bind (h.modifyHead _) fun _ => Keeps.bind (h.setFlag 13) fun _ =>
      Keeps.bind (h.needBits _ _) fun _ => Keeps.bind (h.setFlag 0) fun _ => ?_
    exact Keeps.bind (keeps_bits _) fun _ => keeps_onlyIf (ih _)

theorem firstBits (bl : Nat) (v : Codes) : Keeps P (firstBits env bl v) :=
  keeps_fromFlag (Keeps.bind (h.setFlag 9) fun _ => Keeps.bind (h.modifyHead _) fun _ =>
    Keeps.bind (h.needBits _ _) fun _ => h.setFlag 0)

theorem litCode (tl : HuftPtr) (bl : Nat) (v : Codes) : Keeps P (litCode env tl bl v) := by
  refine keeps_fromFlag (Keeps.get_bind fun _ _ => Keeps.bind (keeps_bits _) fun _ => ?_)
  exact Keeps.bind (keeps_onlyIf (h.descendLit _ _)) fun _ =>
    Keeps.bind (h.dumpBits _) fun _ => Keeps.pure _

theorem literal (v : Codes) : Keeps P (literal env v) := by
  refine Keeps.bind (h.modifyHead _) fun _ => Keeps.ite (keeps_ret 1) ?_
  exact Keeps.bind (h.recordToken _) fun _ => Keeps.bind (h.putLit _) fun _ =>
    Keeps.bind (h.putDist 0) fun _ => Keeps.get_bind fun _ _ =>
    keeps_onlyIf (h.flush v)

theorem endOfBlock : Keeps P endOfBlock := by
  refine Keeps.get_bind fun _ _ =>
    Keeps.bind (keeps_onlyIf (h.modify fun _ => .untraced rfl rfl rfl rfl rfl)) fun _ =>
      Keeps.bind (h.modifyHead _) fun _ => Keeps.get_bind fun _ _ => ?_
  exact keeps_onlyIf (h.modify fun _ => .untraced rfl rfl rfl rfl rfl)

theorem copyLength (v : Codes) : Keeps P (copyLength env v) := by
  refine keeps_fromFlag (Keeps.bind (h.modifyHead _) fun _ => Keeps.bind (h.setFlag 11) fun _ =>
    Keeps.bind (h.needBits _ _) fun _ => Keeps.bind (h.setFlag 0) fun _ => Keeps.get_bind fun _ _ =>
    Keeps.ite (keeps_ret 1) (Keeps.bind (keeps_bits _) fun _ => ?_))
  refine Keeps.bind (h.recordToken _) fun _ => Keeps.bind (h.putLit _) fun _ =>
    Keeps.get_bind fun _ _ => Keeps.bind (keeps_onlyIf (h.flush v)) fun _ => ?_
  exact Keeps.bind (h.dumpBits _) fun _ => Keeps.pure _

theorem distBits (bd : Nat) (v : Codes) : Keeps P (distBits env bd v) :=
  keeps_fromFlag (Keeps.bind (h.modifyHead _) fun _ => Keeps.bind (h.setFlag 12) fun _ =>
    Keeps.bind (h.needBits _ _) fun _ => h.setFlag 0)

theorem distCode (td : HuftPtr) (bd : Nat) (v : Codes) : Keeps P (distCode env td bd v) := by
  refine keeps_fromFlag (Keeps.get_bind fun _ _ => Keeps.bind (keeps_bits _) fun _ => ?_)
  exact Keeps.bind (keeps_onlyIf (h.descendDist _ _)) fun _ =>
    Keeps.bind (h.dumpBits _) fun _ => Keeps.bind (h.modifyHead _) fun _ => Keeps.pure _

theorem copyDist (v : Codes) : Keeps P (copyDist env v) := by
  refine keeps_fromFlag (Keeps.bind (h.setFlag 14) fun _ => Keeps.bind (h.modifyHead _) fun _ =>
    Keeps.bind (h.needBits _ _) fun _ => Keeps.bind (h.setFlag 0) fun _ => Keeps.get_bind fun _ _ =>
    Keeps.ite (keeps_ret 1) (Keeps.bind (keeps_bits _) fun _ => ?_))
  refine Keeps.bind (h.recordToken _) fun _ => Keeps.bind (h.putDist _) fun _ =>
    Keeps.get_bind fun _ _ =>
    Keeps.bind (keeps_onlyIf (h.flush v)) fun _ => ?_
  exact Keeps.bind (h.dumpBits _) fun _ => Keeps.pure _

theorem countRounds (v : Codes) : Keeps P (countRounds v) :=
  Keeps.ite (Keeps.ite (Keeps.bind (h.modifyHead _) fun _ => keeps_ret 1) (Keeps.pure _))
    (Keeps.pure _)

theorem codesRound (tl td : HuftPtr) (bl bd : Nat) (v : Codes) :
    Keeps P (codesRound env tl td bl bd v) := by
  refine Keeps.bind (h.firstBits _ _) fun _ => Keeps.bind (h.litCode _ _ _) fun v => ?_
  refine Keeps.ite (Keeps.bind (h.literal v) h.countRounds) (Keeps.ite ?_ ?_)
  · exact Keeps.bind h.endOfBlock fun _ => Keeps.pure _
  · refine Keeps.bind (h.copyLength v) fun v => Keeps.bind (h.distBits bd v) fun _ => ?_
    exact Keeps.bind (h.distCode _ _ _) fun v => Keeps.bind (h.copyDist v) h.countRounds

theorem codesLoop (tl td : HuftPtr) (bl bd fuel : Nat) (v : Codes) :
    Keeps P (codesLoop env tl td bl bd fuel v) := by
  induction fuel generalizing v with
  | zero => exact Keeps.throw _
  | succ fuel ih =>
    refine Keeps.bind (h.codesRound _ _ _ _ _) fun next => ?_
    cases next with
    | none => exact Keeps.pure _
    | some v => exact ih v

theorem inflateCodes (tl td : HuftPtr) (bl bd : Nat) : Keeps P (inflateCodes env tl td bl bd) := by
  refine keeps_call (Keeps.get_bind fun _ _ => Keeps.bind (h.codesLoop _ _ _ _ _ _) fun _ => ?_)
  exact Keeps.bind (h.modify fun _ => .untraced rfl rfl rfl rfl rfl) fun _ => Keeps.pure _

theorem matchBlock : Keeps P (matchBlock env) := by
  refine Keeps.bind (h.modify fun _ => .untraced rfl rfl rfl rfl rfl) fun _ =>
    Keeps.bind h.keywordMatch
    fun _ => Keeps.ite ?_ (Keeps.pure _)
  exact Keeps.bind (h.modify fun _ => .untraced rfl rfl rfl rfl rfl) fun _ =>
    Keeps.get_bind fun _ _ =>
    Keeps.bind (keeps_onlyIf h.dropTables) fun _ => keeps_ret 1

theorem codesThenMatch (tl td : HuftPtr) (bl bd : Nat) : Keeps P (codesThenMatch env tl td bl bd) :=
  Keeps.bind (h.inflateCodes _ _ _ _) fun _ =>
    Keeps.ite (Keeps.bind h.dropTables fun _ => keeps_ret 1) h.matchBlock

theorem stable : Stable env P P where
  weaken _ hs := hs
  touch s _ _ _ _ hs := h.congr s _ (.untraced rfl rfl rfl rfl rfl) hs
  setFlag s _ _ hs := h.congr s _ (.untraced rfl rfl rfl rfl rfl) hs
  needBits n fuel := (h.needBits n fuel).conseq (fun _ hs => hs) (fun _ _ hs => hs)
    fun _ _ hs => ⟨fun _ => hs, hs⟩
  codesThenMatch tl td bl bd := (h.codesThenMatch tl td bl bd).conseq (fun _ hs => hs)
    (fun _ _ hs => ⟨fun _ => hs, hs⟩) fun _ _ hs => ⟨fun _ => hs, hs⟩

theorem inflate : Keeps P (inflate env) := by
  refine (h.stable.inflate (S := P) fun s hs => ?_).conseq (fun _ hs => hs) (fun _ _ hs => hs.2)
    fun _ _ hs => hs.2
  split
  · exact h.congr s _ (.untraced rfl rfl rfl rfl rfl) hs
  · exact h.congr s _ (.untraced rfl rfl rfl rfl rfl) hs

theorem getByte : Keeps P getByte :=
  Keeps.get_bind fun s hs =>
    Keeps.bind ⟨fun _ _ => h.congr s _ (.untraced rfl rfl rfl rfl rfl) hs⟩ fun _ => Keeps.pure _

theorem skipBytes (n : Nat) : Keeps P (skipBytes n) := by
  induction n with
  | zero => exact Keeps.pure _
  | succ n ih => exact Keeps.bind h.getByte fun _ => ih

theorem skipString (n : Nat) : Keeps P (skipString n) := by
  induction n with
  | zero => exact Keeps.pure _
  | succ n ih => exact Keeps.bind h.getByte fun _ => keeps_onlyIf ih

theorem skipName : Keeps P skipName := Keeps.get_bind fun _ _ => h.skipString _

theorem getMethod : Keeps P (getMethod env) := by
  refine Keeps.bind h.getByte fun _ => Keeps.bind h.getByte fun _ => Keeps.ite ?_ (Keeps.pure _)
  refine Keeps.bind h.getByte fun _ => Keeps.ite ?_ (Keeps.pure _)
  refine Keeps.bind h.getByte fun _ => Keeps.bind (h.skipBytes _) fun _ =>
    Keeps.bind (keeps_onlyIf (h.skipBytes _)) fun _ => Keeps.bind (keeps_onlyIf ?_) fun _ => ?_
  · exact Keeps.bind h.getByte fun _ => Keeps.bind h.getByte fun _ => h.skipBytes _
  · exact Keeps.bind (keeps_onlyIf h.skipName) fun _ => Keeps.bind (keeps_onlyIf h.skipName)
      fun _ => Keeps.pure _

theorem uncompress (str : List UInt8) (len : Nat) : Keeps P (uncompress env str len) := by
  refine Keeps.bind (h.modify fun _ => .untraced rfl rfl rfl rfl rfl) fun _ =>
    Keeps.get_bind fun _ _ =>
    Keeps.bind (keeps_onlyIf ?_) fun _ => Keeps.get_bind fun _ _ => keeps_onlyIf ?_
  · exact Keeps.bind h.getMethod fun _ =>
      Keeps.bind (h.modify fun _ => .untraced rfl rfl rfl rfl rfl)
      fun _ => Keeps.pure _
  · exact Keeps.bind h.inflate fun _ =>
      keeps_onlyIf (h.modify fun _ => .untraced rfl rfl rfl rfl rfl)

end Framed

/-! ### The current block -/

/-- The blocks and the buffers are these, and `current_block` is `NULL` or below a bound, which is
not below the number of the blocks. -/
structure InBlocks (blocks : List Segment) (bound : Nat) (litter dist : Option Nat) (s : State) :
    Prop where
  down : s.down = blocks
  bounded : blocks.length ≤ bound
  currentBlock : ∀ c, s.currentBlock = some c → c < bound
  litterBuf : s.litterBuf.map Buffer.address = litter
  distBuf : s.distBuf.map Buffer.address = dist

variable {down : List Segment} {bound : Nat} {litterBuf distBuf : Option Nat} {s : State}

theorem InBlocks.congr {s' : State} (hFrame : SameFrame s s')
    (h : InBlocks down bound litterBuf distBuf s) : InBlocks down bound litterBuf distBuf s' :=
  ⟨hFrame.down.trans h.down, h.bounded, fun c hc =>
    h.currentBlock c (hFrame.currentBlock.symm.trans hc),
    hFrame.litterBuf.trans h.litterBuf, hFrame.distBuf.trans h.distBuf⟩

/-- `current_block` is set to a block below the bound. -/
theorem InBlocks.goto {s' : State} (h : InBlocks down bound litterBuf distBuf s)
    (hBlock : ∀ c, s'.currentBlock = some c → c < bound) (hDown : s'.down = s.down)
    (hLit : s'.litterBuf = s.litterBuf) (hDist : s'.distBuf = s.distBuf) :
    InBlocks down bound litterBuf distBuf s' :=
  ⟨hDown.trans h.down, h.bounded, hBlock, by rw [hLit, h.litterBuf], by rw [hDist, h.distBuf]⟩

theorem InBlocks.nextBlock {next : Nat} (h : InBlocks down bound litterBuf distBuf s)
    (hNext : s.nextBlock = some next) :
    next < bound := by
  obtain ⟨c, -, hc⟩ := Option.bind_eq_some_iff.mp hNext
  rw [h.down] at hc
  split at hc
  · obtain rfl := Option.some.inj hc
    exact Nat.lt_of_lt_of_le ‹_› h.bounded
  · cases hc

theorem InBlocks.modify {f : State → State} (hf : ∀ s, SameFrame s (f s)) :
    Keeps (InBlocks down bound litterBuf distBuf) (modify f : Code Unit) :=
  Keeps.modify fun s => InBlocks.congr (hf s)

theorem chunkHeader_inBlocks (m : Memory) (block : Segment) (size : List UInt8) (p : Nat) :
    Keeps (InBlocks down bound litterBuf distBuf) (chunkHeader m block size p) :=
  Keeps.bind (InBlocks.modify fun _ => .untraced rfl rfl rfl rfl rfl) fun _ =>
    Keeps.ite (InBlocks.modify fun _ => .untraced rfl rfl rfl rfl rfl)
      (InBlocks.modify fun _ => .untraced rfl rfl rfl rfl rfl)

theorem fillBuffer_inBlocks (m : Memory) (next : Bool) (block : Segment) :
    Keeps (InBlocks down bound litterBuf distBuf) (fillBuffer m next block) := by
  refine Keeps.bind (InBlocks.modify fun _ => .untraced rfl rfl rfl rfl rfl) fun _ =>
    Keeps.get_bind fun s _ => ?_
  refine Keeps.ite (InBlocks.modify fun _ => .untraced rfl rfl rfl rfl rfl) (Keeps.ite
    (InBlocks.modify fun _ => .untraced rfl rfl rfl rfl rfl)
      (Keeps.ite (chunkHeader_inBlocks _ _ _ _)
      (Keeps.ite (Keeps.ite ?_ (chunkHeader_inBlocks _ _ _ _)) ?_)))
  · exact InBlocks.modify fun _ => .untraced rfl rfl rfl rfl rfl
  · exact InBlocks.modify fun _ => .untraced rfl rfl rfl rfl rfl

theorem waitbuf_inBlocks (m : Memory) : Keeps (InBlocks down bound litterBuf distBuf)
    (waitbuf m) := by
  refine Keeps.bind (InBlocks.modify fun _ => .untraced rfl rfl rfl rfl rfl) fun _ =>
    Keeps.get_bind fun s hs => ?_
  cases s.block with
  | none => exact InBlocks.modify fun _ => .untraced rfl rfl rfl rfl rfl
  | some block =>
    refine Keeps.ite ?_ (fillBuffer_inBlocks _ _ _)
    cases hNext : s.nextBlock with
    | none => exact InBlocks.modify fun _ => .untraced rfl rfl rfl rfl rfl
    | some next =>
      refine Keeps.bind (Keeps.modify fun t ht => ht.goto ?_ rfl rfl rfl) fun _ =>
        fillBuffer_inBlocks _ _ _
      rintro c ⟨⟩
      exact hs.nextBlock hNext

theorem Machine.framed (m : Machine) : Framed m.env (InBlocks down bound litterBuf distBuf) :=
  ⟨fun _ _ => InBlocks.congr, waitbuf_inBlocks m.toMemory⟩

theorem InBlocks.next_or_current (h : InBlocks down bound litterBuf distBuf s) :
    ∀ c, (s.nextBlock <|> s.currentBlock) = some c → c < bound := by
  intro c hc
  cases hNext : s.nextBlock with
  | none => exact h.currentBlock c (by simpa [hNext] using hc)
  | some next => exact h.nextBlock (by simpa [hNext] using hc)

theorem sizeLoop_inBlocks (m : Machine) (loop headSize temp : Nat) :
    Keeps (InBlocks down bound litterBuf distBuf) (sizeLoop m loop headSize temp) := by
  induction loop generalizing headSize temp with
  | zero => exact Keeps.pure _
  | succ loop ih =>
    refine Keeps.get_bind fun s _ => Keeps.ite (Keeps.pure _) (Keeps.ite (Keeps.pure _) ?_)
    refine Keeps.bind (keeps_onlyIf (Keeps.modify fun t ht => ?_)) fun _ =>
      Keeps.get_bind fun s _ => ?_
    · exact ht.goto (fun c hc => ht.nextBlock hc) rfl rfl rfl
    · refine Keeps.bind (InBlocks.modify fun _ => .untraced rfl rfl rfl rfl rfl) fun _ =>
        Keeps.ite ?_ (ih _ _)
      exact Keeps.bind (InBlocks.modify fun _ => .untraced rfl rfl rfl rfl rfl) fun _ =>
        Keeps.pure _

theorem inflateBlockData_inBlocks (m : Machine) (headSize temp : Nat) :
    Keeps (InBlocks down bound litterBuf distBuf) (inflateBlockData m headSize temp) := by
  refine Keeps.get_bind fun s _ => Keeps.bind (keeps_onlyIf (m.framed.uncompress _ _)) fun _ =>
    Keeps.get_bind fun s _ => Keeps.ite (Keeps.modify fun t ht => ?_) (keeps_onlyIf ?_)
  · exact ht.goto ht.next_or_current rfl rfl rfl
  · exact InBlocks.modify fun _ => .untraced rfl rfl rfl rfl rfl

theorem processChunk_inBlocks (m : Machine) (headSize temp : Nat) :
    Keeps (InBlocks down bound litterBuf distBuf) (processChunk m headSize temp) := by
  refine Keeps.bind (sizeLoop_inBlocks m _ _ _) fun found => ?_
  match found with
  | none => exact Keeps.pure _
  | some (loop, headSize, temp) =>
    refine Keeps.ite (InBlocks.modify fun _ => .untraced rfl rfl rfl rfl rfl)
      (Keeps.get_bind fun s hs => ?_)
    refine Keeps.ite ?_ (inflateBlockData_inBlocks m _ _)
    cases hNext : s.nextBlock with
    | none => exact Keeps.pure _
    | some next =>
      refine Keeps.bind (Keeps.modify fun t ht => ht.goto ?_ rfl rfl rfl) fun _ =>
        inflateBlockData_inBlocks m _ _
      rintro c ⟨⟩
      exact hs.nextBlock hNext

theorem processBlock_inBlocks (m : Machine) : Keeps (InBlocks down bound litterBuf distBuf)
    (processBlock m) := by
  refine Keeps.get_bind fun s _ => ?_
  cases s.block with
  | none => exact Keeps.pure _
  | some block =>
    refine Keeps.ite (Keeps.pure _)
      (Keeps.bind (InBlocks.modify fun _ => .untraced rfl rfl rfl rfl rfl) fun _ =>
      Keeps.bind (keeps_onlyIf (InBlocks.modify fun _ => .untraced rfl rfl rfl rfl rfl)) fun _ =>
      Keeps.get_bind fun s _ => Keeps.ite (processChunk_inBlocks m _ _)
        (Keeps.modify fun t ht => ?_))
    exact ht.goto ht.next_or_current rfl rfl rfl

/-- `process_gzip_data` leaves `current_block` at one of the blocks. -/
theorem process_inBlocks (m : Machine) (hDown : down ≠ []) :
    Keeps (InBlocks down bound litterBuf distBuf) (process m) := by
  refine Keeps.get_bind fun s hs => ?_
  cases s.currentBlock with
  | none =>
    refine Keeps.bind (Keeps.modify fun t ht => ht.goto ?_ rfl rfl rfl) fun _ =>
      processBlock_inBlocks m
    rintro c ⟨⟩
    exact Nat.lt_of_lt_of_le (List.length_pos_iff.mpr hDown) hs.bounded
  | some c =>
    cases hNext : s.nextBlock with
    | none => exact Keeps.pure _
    | some next =>
      refine Keeps.bind (Keeps.modify fun t ht => ht.goto ?_ rfl rfl rfl) fun _ =>
        processBlock_inBlocks m
      rintro c ⟨⟩
      exact hs.nextBlock hNext

end Shutter.Gunzip
