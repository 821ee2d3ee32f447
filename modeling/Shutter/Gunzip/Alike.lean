import Shutter.Gunzip.Twin.Blocks

/-! Two runs of `process_gzip_data` from a head that has been used for other responses and from one
that has not. -/

namespace Shutter.Gunzip

open Shutter.Stream (Segment)
open Shutter.Library

/-- The fields of the response that is decompressed, and what the next call of `inflate` reads. -/
structure SameResponse (g g' : Gzip) : Prop where
  httpFlag : g'.httpFlag = g.httpFlag
  chunkSize : g'.chunkSize = g.chunkSize
  headSize : g'.headSize = g.headSize
  head : SameHead g.head g'.head

/-- Which of the two a head cannot have from an earlier stream any more: a response that goes on,
and `uchunk_flag`. -/
structure Cleared where
  response : Bool
  uchunk : Bool
deriving DecidableEq

/-- The parser is in the same state, but for what may be left of an earlier stream.  Without a
response to decompress, the next segment sets the fields of the response, or it is skipped. -/
structure SameParser (c : Cleared) (g g' : Gzip) : Prop where
  litterBuf : g'.litterBuf = g.litterBuf
  distBuf : g'.distBuf = g.distBuf
  uchunkFlag : c.uchunk = true ∨ g.uchunkFlag = false → g'.uchunkFlag = g.uchunkFlag
  decompress : c.response = true → (g'.textFlag && g'.gzipFlag) = (g.textFlag && g.gzipFlag)
  response : c.response = true → g.textFlag = true → g.gzipFlag = true → SameResponse g g'

/-- The numbers of tokens are the same, and the block to go on with. -/
structure SameCounters (g g' : Gzip) : Prop where
  lit : g'.lit = g.lit
  dist : g'.dist = g.dist
  currentBlock : g'.currentBlock = g.currentBlock

/-- A response is decompressed. -/
def Gzip.Active (g : Gzip) : Prop := g.textFlag = true ∧ g.gzipFlag = true

/-- What a stream that is closed in this state leaves behind: a response if one is decompressed, and
`uchunk_flag` if it is set. -/
def Gzip.cleared (g : Gzip) : Cleared := ⟨!(g.textFlag && g.gzipFlag), !g.uchunkFlag⟩

/-- Behind the block that `process_gzip_data` has worked on, if any: a header sets the fields of a
response, and one that ends with its block sets `uchunk_flag` as well. -/
def Cleared.behind (c : Cleared) (m : Machine) : Option Segment → Cleared
  | none => c
  | some block =>
    if m.isHeader block then
      ⟨true, c.uchunk || (delHeader m.toMemory m.stale block).whole⟩ else c

/-- The block that `process_gzip_data` works on next. -/
def State.startBlock (s : State) : Option Segment :=
  if s.litterBuf.isNone ∨ s.distBuf.isNone then none
  else s.down[match s.currentBlock with
    | none => 0
    | some c => c + 1]?

/-- What a block of a response reads is not left of an earlier stream.  At the flags 3 to 5,
`inflate` reads `j`, which the response has not set. -/
structure Gzip.Own (live : Prop) (c : Cleared) (g : Gzip) : Prop where
  response : c.response = true
  uchunk : c.uchunk = true ∨ g.uchunkFlag = false
  j : 3 ≤ g.head.flag → g.head.flag ≤ 5 → live

/-- The block that `process_gzip_data` works on next has a header, or it belongs to no response, or
to one that reads nothing of an earlier stream. -/
def State.Fits (live : Prop) (c : Cleared) (m : Machine) (s : State) : Prop :=
  ∀ block ∈ s.startBlock, m.isHeader block = false → s.Active → s.Own live c

/-- The two states differ in the head, in `length` and in `uchunk_flag` only. -/
def Around (U : Bool → Bool → Bool → Prop) (A : Nat → Head → Head → Prop)
    (s t : State) : Prop :=
  ∃ head length uchunkFlag, t = { s with head, length, uchunkFlag } ∧ A s.flag s.head head ∧
    U s.httpFlag s.uchunkFlag uchunkFlag

/-- `uchunk_flag` is the same, unless it may be left of an earlier stream in the first state. -/
def Over (c : Cleared) (_ : Bool) (uchunkFlag uchunkFlag' : Bool) : Prop :=
  uchunkFlag' = uchunkFlag ∨ c.uchunk = false ∧ uchunkFlag = true

/-- So it is inside a call, in which a header has then set `Http_flag` to 0. -/
def Pending (c : Cleared) (httpFlag uchunkFlag uchunkFlag' : Bool) : Prop :=
  uchunkFlag' = uchunkFlag ∨ httpFlag = false ∧ c.uchunk = false ∧ uchunkFlag = true

/-- Neither state has a response that is decompressed, but for one of an earlier stream in the first
state, and they differ in the fields of a response only. -/
def Idle (live : Prop) (c : Cleared) (s t : State) : Prop :=
  ∃ head httpFlag textFlag gzipFlag uchunkFlag chunkSize headSize length,
    t = { s with head, httpFlag, textFlag, gzipFlag, uchunkFlag, chunkSize, headSize, length } ∧
      (c.response = true → ¬s.Active) ∧ ¬t.Active ∧
        Over c s.httpFlag s.uchunkFlag uchunkFlag ∧
        (live → Stale s.head head)

/-- The states between two calls. -/
def Alike (live : Prop) (c : Cleared) (s t : State) : Prop :=
  Around (Over c) (fun _ => Ready live) s t ∨ Idle live c s t

section Around

variable {U V : Bool → Bool → Bool → Prop} {A B : Nat → Head → Head → Prop}
  {E : Exit → State → State → Prop} {s t : State}

theorem Around.mono (h : Around U A s t) (hA : ∀ f h h', A f h h' → B f h h')
    (hU : ∀ http u u', U http u u' → V http u u') : Around V B s t := by
  obtain ⟨head, length, uchunkFlag, rfl, hHead, hUchunk⟩ := h
  exact ⟨head, length, uchunkFlag, rfl, hA _ _ _ hHead, hU _ _ _ hUchunk⟩

theorem Beside.around (h : Beside A s t) (hU : ∀ http u, U http u u) : Around U A s t := by
  obtain ⟨head, length, rfl, hHead⟩ := h
  exact ⟨head, length, s.uchunkFlag, rfl, hHead, hU _ _⟩

/-- A step that does not look at the head, at `length` and at `uchunk_flag`. -/
theorem around_modify {f : State → State}
    (hf : ∀ (s : State) head length uchunkFlag,
      f { s with head, length, uchunkFlag } = { f s with head, length, uchunkFlag })
    (hHead : ∀ s, (f s).head = s.head) (hFlag : ∀ s, (f s).flag = s.flag)
    (hU : ∀ s u', U s.httpFlag s.uchunkFlag u' → U (f s).httpFlag (f s).uchunkFlag u') :
    Agrees (Around U A) (modify f : Code Unit) (modify f) (fun _ => Around U A) E := by
  refine Agrees.modify fun s t hst => ?_
  obtain ⟨head, length, uchunkFlag, rfl, hA, hUchunk⟩ := hst
  exact ⟨head, length, uchunkFlag, hf s head length uchunkFlag, by rw [hHead, hFlag]; exact hA,
    hU s _ hUchunk⟩

theorem around_get {α : Type} {f g : State → Code α} {Q : α → State → State → Prop}
    (h : ∀ (s : State) head length uchunkFlag, A s.flag s.head head →
      U s.httpFlag s.uchunkFlag uchunkFlag → Agrees (fun u v => u = s ∧
        v = { s with head, length, uchunkFlag }) (f s)
          (g { s with head, length, uchunkFlag }) Q E) :
    Agrees (Around U A) (get >>= f) (get >>= g) Q E := by
  refine Rel.get_bind_eq fun s t hst => ?_
  obtain ⟨head, length, uchunkFlag, rfl, hHead, hUchunk⟩ := hst
  exact h s head length uchunkFlag hHead hUchunk

theorem around_get' {α : Type} {f g : State → Code α} {Q : α → State → State → Prop}
    (h : ∀ (s : State) head length uchunkFlag,
      Agrees (Around U A) (f s) (g { s with head, length, uchunkFlag }) Q E) :
    Agrees (Around U A) (get >>= f) (get >>= g) Q E := by
  refine around_get fun s head length uchunkFlag hHead hUchunk =>
    (h s head length uchunkFlag).conseq (fun u v huv => ?_) (fun _ _ _ h => h) fun _ _ _ h => h
  obtain ⟨rfl, rfl⟩ := huv
  exact ⟨head, length, uchunkFlag, rfl, hHead, hUchunk⟩

end Around

section Blocks

variable (s : State) (head : Head) (length : Nat) (uchunkFlag : Bool)

@[simp] theorem block_around : State.block { s with head, length, uchunkFlag } = s.block := rfl

@[simp] theorem nextBlock_around :
    State.nextBlock { s with head, length, uchunkFlag } = s.nextBlock := rfl

@[simp] theorem blockLen_around :
    State.blockLen { s with head, length, uchunkFlag } = s.blockLen := rfl

end Blocks

section Bytes

variable {U : Bool → Bool → Bool → Prop} {A : Nat → Head → Head → Prop}
  {E : Exit → State → State → Prop}

theorem getByte_around : Agrees (Around U A) getByte getByte (fun _ => Around U A) E := by
  refine ⟨fun s t hst => ?_⟩
  obtain ⟨head, length, uchunkFlag, rfl, hHead, hUchunk⟩ := hst
  exact ⟨rfl, head, length, uchunkFlag, rfl, hHead, hUchunk⟩

theorem skipBytes_around (n : Nat) :
    Agrees (Around U A) (skipBytes n) (skipBytes n) (fun _ => Around U A) E := by
  induction n with
  | zero => exact Agrees.pure fun _ _ hst => hst
  | succ n ih => exact Agrees.bind getByte_around fun _ => ih

theorem skipString_around (n : Nat) :
    Agrees (Around U A) (skipString n) (skipString n) (fun _ => Around U A) E := by
  induction n with
  | zero => exact Agrees.pure fun _ _ hst => hst
  | succ n ih =>
    exact Agrees.bind getByte_around fun c =>
      agrees_onlyIf Iff.rfl (fun _ => ih) fun _ _ _ hst => hst

theorem skipName_around : Agrees (Around U A) skipName skipName (fun _ => Around U A) E :=
  around_get' fun s _ _ _ => skipString_around (s.inbuf.length - s.inptr + 1)

theorem getMethod_around (env : Env) :
    Agrees (Around U A) (getMethod env) (getMethod env) (fun _ => Around U A) E := by
  refine Agrees.bind getByte_around fun magic₀ => Agrees.bind getByte_around fun magic₁ =>
    Rel.ite Iff.rfl (fun _ => ?_) fun _ => Agrees.pure fun _ _ hst => hst
  refine Agrees.bind getByte_around fun method => Rel.ite Iff.rfl (fun _ => ?_) fun _ =>
    Agrees.pure fun _ _ hst => hst
  have hName : ∀ {p : Prop} [Decidable p],
      Agrees (Around U A) (onlyIf p () skipName) (onlyIf p () skipName) (fun _ => Around U A) E :=
    agrees_onlyIf Iff.rfl (fun _ => skipName_around) fun _ _ _ hst => hst
  refine Agrees.bind getByte_around fun flags => Agrees.bind (skipBytes_around 6) fun _ =>
    Agrees.bind (agrees_onlyIf Iff.rfl (fun _ => skipBytes_around 2) fun _ _ _ hst => hst) fun _ =>
    Agrees.bind (agrees_onlyIf Iff.rfl (fun _ => ?_) fun _ _ _ hst => hst) fun _ =>
    Agrees.bind hName fun _ => Agrees.bind hName fun _ => Agrees.pure fun _ _ hst => hst
  exact Agrees.bind getByte_around fun _ => Agrees.bind getByte_around fun _ => skipBytes_around _

end Bytes

section Process

variable {live : Prop} {c : Cleared} {m : Machine}

/-- Behind a call of `inflate`: with an error, the response is given up. -/
def After (live : Prop) (c : Cleared) (s t : State) : Prop :=
  Around (Over c) (fun _ => Left live) s t ∧
    (s.gzipFlag = true → Around (Over c) (fun _ => Ready live) s t)

theorem After.alike {s t : State} (h : After live c s t) : Alike live c s t := by
  by_cases hGzip : s.gzipFlag = true
  · exact Or.inl (h.2 hGzip)
  · obtain ⟨head, length, uchunkFlag, rfl, hLeft, hUchunk⟩ := h.1
    exact Or.inr ⟨head, s.httpFlag, s.textFlag, s.gzipFlag, uchunkFlag, s.chunkSize, s.headSize,
      length, rfl, fun _ h => hGzip h.2, fun h => hGzip h.2, hUchunk, hLeft.kept⟩

/-- A step that does not look at the head, at `length` and at `uchunk_flag`, and does not set
`gzip_flag`. -/
theorem after_modify {f : State → State} {E : Exit → State → State → Prop}
    (hf : ∀ (s : State) head length uchunkFlag,
      f { s with head, length, uchunkFlag } = { f s with head, length, uchunkFlag })
    (hHead : ∀ s, (f s).head = s.head) (hFlag : ∀ s, (f s).gzipFlag = s.gzipFlag)
    (hUchunk : ∀ s, (f s).uchunkFlag = s.uchunkFlag) :
    Agrees (After live c) (modify f : Code Unit) (modify f) (fun _ => After live c) E := by
  refine Agrees.modify fun s t hst => ⟨?_, fun hGzip => ?_⟩
  · obtain ⟨head, length, uchunkFlag, rfl, hLeft, hOver⟩ := hst.1
    exact ⟨head, length, uchunkFlag, hf s head length uchunkFlag, by rw [hHead]; exact hLeft,
      by rw [hUchunk]; exact hOver⟩
  · obtain ⟨head, length, uchunkFlag, rfl, hReady, hOver⟩ :=
      hst.2 (by rw [← hFlag]; exact hGzip)
    exact ⟨head, length, uchunkFlag, hf s head length uchunkFlag, by rw [hHead]; exact hReady,
      by rw [hUchunk]; exact hOver⟩

/-- The method is read in both states or in neither, and `uchunk_flag` is the same then. -/
theorem method_beside {A : Nat → Head → Head → Prop}
    {E : Exit → State → State → Prop} (env : Env) :
    Agrees (Around (Pending c) A)
      (get >>= fun s => onlyIf (s.httpFlag = false ∨ s.uchunkFlag = true) 8 do
        let method ← getMethod env
        modify fun s => { s with httpFlag := true, uchunkFlag := false }
        return method)
      (get >>= fun s => onlyIf (s.httpFlag = false ∨ s.uchunkFlag = true) 8 do
        let method ← getMethod env
        modify fun s => { s with httpFlag := true, uchunkFlag := false }
        return method) (fun _ => Beside A) E := by
  refine around_get fun s head length uchunkFlag hHead hUchunk => agrees_onlyIf ?_ (fun _ => ?_) ?_
  · rcases hUchunk with rfl | ⟨hHttp, -, -⟩
    · exact Iff.rfl
    · exact iff_of_true (Or.inl hHttp) (Or.inl hHttp)
  · have hStart : Agrees (fun u v => u = s ∧ v = { s with head, length, uchunkFlag })
        (getMethod env) (getMethod env) (fun _ => Around (Pending c) A) E := by
      refine (getMethod_around env).conseq (fun u v huv => ?_) (fun _ _ _ h => h) fun _ _ _ h => h
      obtain ⟨rfl, rfl⟩ := huv
      exact ⟨head, length, uchunkFlag, rfl, hHead, hUchunk⟩
    refine Agrees.bind hStart fun method => Agrees.bind (Q := fun _ => Beside A)
      (Agrees.modify fun u v huv => ?_) fun _ => Agrees.pure fun _ _ h => h
    obtain ⟨head', length', uchunkFlag', rfl, hHead', -⟩ := huv
    exact ⟨head', length', rfl, hHead'⟩
  · rintro hSame u v ⟨rfl, rfl⟩
    rcases hUchunk with rfl | ⟨hHttp, -, -⟩
    · exact ⟨head, length, rfl, hHead⟩
    · exact absurd (Or.inl hHttp) hSame

theorem uncompress_around (str : List UInt8) (len : Nat) :
    Agrees (Around (Pending c) fun _ h h' => Ready live h h' ∧ Resumes h h')
      (uncompress m.env str len) (uncompress m.env str len) (fun _ => After live c)
      fun e _ _ => e = .spin := by
  have hAfter : ∀ s t, Beside (fun _ h h' => Ready live h h' ∧ Resumes h h') s t →
      After live c s t := fun s t hst =>
    ⟨(hst.mono fun _ _ _ h => h.1.toLeft).around fun _ _ => Or.inl rfl,
      fun _ => (hst.mono fun _ _ _ h => h.1).around fun _ _ => Or.inl rfl⟩
  refine Agrees.bind (around_modify (fun _ _ _ _ => rfl) (fun _ => rfl) (fun _ => rfl)
    fun _ _ h => h) fun _ => ?_
  rw [← bind_assoc]
  refine Agrees.bind (method_beside m.env) fun method => beside_get' fun u _ _ _ =>
    agrees_onlyIf Iff.rfl (fun _ => ?_) fun _ => hAfter
  refine Agrees.bind ((inflate_beside m.blind).conseq (fun _ _ hst => hst.mono fun _ h h' hk =>
    hk) (fun _ _ _ h => h) fun _ _ _ h => h) fun error => ?_
  refine agrees_onlyIf Iff.rfl (fun _ => Agrees.modify fun s t hst => ?_) fun hZero s t hst => ?_
  · obtain ⟨head, length, rfl, hLeft⟩ := hst.2
    exact ⟨⟨head, length, s.uchunkFlag, rfl, hLeft, Or.inl rfl⟩, fun h =>
      Bool.noConfusion h⟩
  · exact ⟨hst.2.around fun _ _ => Or.inl rfl,
      fun _ => (hst.1 (by simpa using hZero)).around fun _ _ => Or.inl rfl⟩

theorem sizeLoop_around {A : Nat → Head → Head → Prop} {E : Exit → State → State → Prop}
    (loop headSize temp : Nat) :
    Agrees (Around (Pending c) A) (sizeLoop m loop headSize temp) (sizeLoop m loop headSize temp)
      (fun _ => Around (Pending c) A) E := by
  induction loop generalizing headSize temp with
  | zero => exact Agrees.pure fun _ _ hst => hst
  | succ loop ih =>
    refine around_get' fun s head length uchunkFlag => ?_
    simp only [blockLen_around, nextBlock_around]
    refine Rel.ite Iff.rfl (fun _ => Agrees.pure fun _ _ hst => hst) fun _ => Rel.ite Iff.rfl
      (fun _ => Agrees.pure fun _ _ hst => hst) fun _ => ?_
    refine Agrees.bind (agrees_onlyIf Iff.rfl (fun _ =>
      around_modify (fun _ _ _ _ => rfl) (fun _ => rfl) (fun _ => rfl) fun _ _ h => h)
      fun _ _ _ hst => hst) fun _ => around_get' fun u head' length' uchunkFlag' => ?_
    simp only [block_around]
    refine Agrees.bind (around_modify (fun _ _ _ _ => rfl) (fun _ => rfl) (fun _ => rfl)
      fun _ _ h => h) fun _ => Rel.ite Iff.rfl (fun _ => ?_) fun _ => ih _ _
    refine Agrees.bind (around_modify (fun _ _ _ _ => rfl) (fun _ => rfl) (fun _ => rfl)
      fun _ _ h => ?_) fun _ => Agrees.pure fun _ _ hst => hst
    exact h.imp_right fun h => ⟨rfl, h.2⟩

theorem inflateBlockData_around (headSize temp : Nat) :
    Agrees (Around (Pending c) fun _ h h' => Ready live h h' ∧ Resumes h h')
      (inflateBlockData m headSize temp) (inflateBlockData m headSize temp)
      (fun _ => Alike live c) fun e _ _ => e = .spin := by
  have hOver : ∀ http u u', Pending c http u u' → Over c http u u' := fun _ _ _ h =>
    h.imp_right And.right
  refine Agrees.conseq (Q := fun _ => After live c) ?_ (fun _ _ h => h) (fun _ _ _ => After.alike)
    fun _ _ _ h => h
  refine around_get' fun s head length uchunkFlag => ?_
  refine Agrees.bind (agrees_onlyIf Iff.rfl (fun _ => uncompress_around _ _) fun _ _ _ hst => ?_)
    fun _ => Rel.get_bind_eq fun u v huv => ?_
  · exact ⟨hst.mono (fun _ _ _ h => h.1.toLeft) hOver, fun _ =>
      hst.mono (fun _ _ _ h => h.1) hOver⟩
  · obtain ⟨head', length', uchunkFlag', rfl, hLeft, -⟩ := huv.1
    have hFlag : head'.flag = u.head.flag := hLeft.flag
    have hSame : ∀ p : Prop, (p ∧ u.head.flag = 0 ↔ p ∧ head'.flag = 0) :=
      fun p => by rw [hFlag]
    refine Rel.conseq (R := After live c) ?_ (fun s' t' h => ?_)
      (fun _ _ _ _ h => h) fun _ _ _ _ h => h
    · refine Rel.ite (hSame _) (fun _ => after_modify (fun _ _ _ _ => rfl) (fun _ => rfl)
        (fun _ => rfl) fun _ => rfl) fun _ => agrees_onlyIf (hSame _) (fun _ => ?_) fun _ _ _ h => h
      exact after_modify (fun _ _ _ _ => rfl) (fun _ => rfl) (fun _ => rfl) fun _ => rfl
    · obtain ⟨rfl, rfl⟩ := h
      exact huv

theorem processChunk_around (headSize temp : Nat) :
    Agrees (Around (Pending c) fun _ h h' => Ready live h h' ∧ Resumes h h')
      (processChunk m headSize temp) (processChunk m headSize temp) (fun _ => Alike live c)
      fun e _ _ => e = .spin := by
  have hAlike : ∀ s t, Around (Pending c) (fun _ h h' => Ready live h h' ∧ Resumes h h') s t →
      Alike live c s t := fun s t hst =>
    Or.inl (hst.mono (fun _ _ _ h => h.1) fun _ _ _ h => h.imp_right And.right)
  refine Agrees.bind (sizeLoop_around 10 headSize temp) fun found => ?_
  match found with
  | none => exact Agrees.pure hAlike
  | some (loop, headSize, temp) =>
    refine Rel.ite Iff.rfl (fun _ => ?_) fun _ => around_get' fun s head length uchunkFlag => ?_
    · refine Agrees.conseq ?_ (fun _ _ h => h) (fun _ => hAlike) fun _ _ _ h => h
      exact around_modify (fun _ _ _ _ => rfl) (fun _ => rfl) (fun _ => rfl) fun _ _ h =>
        h.imp_right fun h => ⟨rfl, h.2⟩
    · simp only [blockLen_around, nextBlock_around]
      refine Rel.ite Iff.rfl (fun _ => ?_) fun _ => inflateBlockData_around headSize temp
      cases s.nextBlock with
      | none => exact Agrees.pure hAlike
      | some next =>
        exact Agrees.bind (around_modify (fun _ _ _ _ => rfl) (fun _ => rfl) (fun _ => rfl)
          fun _ _ h => h) fun _ => inflateBlockData_around 0 0

/-- `process_gzip_data` from the test for a response that is decompressed on. -/
def processResponse (m : Machine) (headSize temp : Nat) : Code Unit := do
  let s ← get
  if s.textFlag ∧ s.gzipFlag then processChunk m headSize temp
  else
    modify fun s => { s with currentBlock := (s.nextBlock <|> s.currentBlock), httpFlag := false }

/-- What `process_gzip_data` finds behind its first steps, where the states have the same
response. -/
structure Same (live : Prop) (c : Cleared) (s t : State) : Prop where
  around : Around (Over c) (fun _ => Ready live) s t
  uchunk : s.Active → Pending c s.httpFlag s.uchunkFlag t.uchunkFlag
  j : s.Active → 3 ≤ s.head.flag → s.head.flag ≤ 5 → live

theorem processResponse_same (headSize temp : Nat) :
    Agrees (Same live c) (processResponse m headSize temp) (processResponse m headSize temp)
      (fun _ => Alike live c) fun e _ _ => e = .spin := by
  refine Rel.get_bind_eq fun s t hst => ?_
  obtain ⟨⟨head, length, uchunkFlag, rfl, hReady, hOver⟩, hUchunk, hj⟩ := hst
  refine Rel.ite Iff.rfl (fun hActive => ?_) fun _ => ?_
  · refine (processChunk_around headSize temp).conseq (fun s' t' h => ?_) (fun _ _ _ h => h)
      fun _ _ _ h => h
    obtain ⟨rfl, rfl⟩ := h
    exact ⟨head, length, uchunkFlag, rfl,
      ⟨hReady, fun h3 h5 => hReady.kept (hj hActive h3 h5)⟩, hUchunk hActive⟩
  · refine Agrees.modify fun s' t' h => ?_
    obtain ⟨rfl, rfl⟩ := h
    exact Or.inl ⟨head, length, uchunkFlag, rfl, hReady, hOver⟩

theorem processResponse_idle (headSize temp : Nat) :
    Agrees (fun s t => Idle live c s t ∧ ¬s.Active) (processResponse m headSize temp)
      (processResponse m headSize temp) (fun _ => Alike live c) fun e _ _ => e = .spin := by
  refine Rel.get_bind_eq fun s t hst => ?_
  obtain ⟨⟨head, httpFlag, textFlag, gzipFlag, uchunkFlag, chunkSize, headSize, length, rfl, -,
    hIdle', hOver, hLive⟩, hIdle⟩ := hst
  refine Rel.ite (iff_of_false hIdle hIdle') (fun h => absurd h hIdle) fun _ => ?_
  refine Agrees.modify fun s' t' h => ?_
  obtain ⟨rfl, rfl⟩ := h
  exact Or.inr ⟨head, false, textFlag, gzipFlag, uchunkFlag, chunkSize, headSize, length, rfl,
    fun _ => hIdle, hIdle', hOver, hLive⟩

theorem Alike.goto {s t : State} (h : Alike live c s t) (currentBlock : Option Nat) :
    Alike live c { s with currentBlock } { t with currentBlock } := by
  rcases h with ⟨head, length, uchunkFlag, rfl, h⟩ |
    ⟨head, http, text, gzip, uchunkFlag, chunk, size, length, rfl, h⟩
  · exact Or.inl ⟨head, length, uchunkFlag, rfl, h⟩
  · exact Or.inr ⟨head, http, text, gzip, uchunkFlag, chunk, size, length, rfl, h⟩

theorem Alike.setHttp {s t : State} (h : Alike live c s t) (httpFlag : Bool) :
    Alike live c { s with httpFlag } { t with httpFlag } := by
  rcases h with ⟨head, length, uchunkFlag, rfl, h⟩ |
    ⟨head, _, text, gzip, uchunkFlag, chunk, size, length, rfl, h⟩
  · exact Or.inl ⟨head, length, uchunkFlag, rfl, h⟩
  · exact Or.inr ⟨head, httpFlag, text, gzip, uchunkFlag, chunk, size, length, rfl, h⟩

theorem Alike.reads {s t : State} (h : Alike live c s t) :
    t.block = s.block ∧ t.nextBlock = s.nextBlock ∧ t.currentBlock = s.currentBlock ∧
      t.litterBuf = s.litterBuf ∧ t.distBuf = s.distBuf := by
  rcases h with ⟨_, _, _, rfl, -⟩ | ⟨_, _, _, _, _, _, _, _, rfl, -⟩ <;>
    exact ⟨rfl, rfl, rfl, rfl, rfl⟩

theorem Alike.over {s t : State} (h : Alike live c s t) :
    Over c s.httpFlag s.uchunkFlag t.uchunkFlag := by
  rcases h with ⟨_, _, _, rfl, -, h⟩ | ⟨_, _, _, _, _, _, _, _, rfl, -, -, h, -⟩ <;> exact h

/-- A header starts a response: its fields are set, and no call of `inflate` goes on. -/
theorem header_same (del : Deleted) (stale : Nat) :
    Agrees (Alike live c) (modify fun s =>
        { s with httpFlag := del.whole, uchunkFlag := s.uchunkFlag || del.whole,
                 textFlag := del.textFlag, gzipFlag := del.gzipFlag,
                 chunkSize := del.chunk.getD (toInt stale), headSize := del.headSize.getD 0,
                 head := { s.head with flag := 0 } } : Code Unit)
      (modify fun s =>
        { s with httpFlag := del.whole, uchunkFlag := s.uchunkFlag || del.whole,
                 textFlag := del.textFlag, gzipFlag := del.gzipFlag,
                 chunkSize := del.chunk.getD (toInt stale), headSize := del.headSize.getD 0,
                 head := { s.head with flag := 0 } })
      (fun _ => Same live ⟨true, c.uchunk || del.whole⟩) fun e _ _ => e = .spin := by
  have hReady : ∀ h h' : Head, (live → Stale h h') →
      Ready live { h with flag := 0 } { h' with flag := 0 } := fun h h' hLive =>
    { kept := fun hl => { hLive hl with }
      flag := rfl
      same := ⟨rfl, fun h => absurd rfl h, fun h => absurd rfl h,
        Saved.start _ _ Nat.two_pos, Local.early (Nat.succ_pos 2) _ _⟩ }
  have hPending : ∀ http u u', Over c http u u' →
      Pending ⟨true, c.uchunk || del.whole⟩ del.whole (u || del.whole) (u' || del.whole) := by
    rintro http u u' (rfl | ⟨hc, rfl⟩)
    · exact Or.inl rfl
    · cases hWhole : del.whole with
      | true => exact Or.inl (by simp)
      | false => exact Or.inr ⟨rfl, by simp [hc], rfl⟩
  refine Agrees.modify fun s t hst => ?_
  have hUchunk := hPending _ _ _ hst.over
  have hHead : ∃ head length uchunkFlag,
      t = { s with head, length, uchunkFlag, httpFlag := t.httpFlag, textFlag := t.textFlag,
                   gzipFlag := t.gzipFlag, chunkSize := t.chunkSize, headSize := t.headSize } ∧
        (live → Stale s.head head) := by
    rcases hst with ⟨head, length, u', rfl, hHead, -⟩ | ⟨head, _, _, _, u', _, _, length,
      rfl, -, -, -, h⟩
    · exact ⟨head, length, u', rfl, hHead.kept⟩
    · exact ⟨head, length, u', rfl, h⟩
  obtain ⟨head, length, u', ht, hLive⟩ := hHead
  refine ⟨⟨{ head with flag := 0 }, length, u' || del.whole, ?_, hReady _ _ hLive, ?_⟩,
    fun _ => hUchunk, fun _ h3 => absurd h3 (Nat.not_succ_le_zero 2)⟩
  · rw [ht]
  · rw [ht] at hUchunk
    exact hUchunk.imp_right And.right

/-- The states of a call behind the choice of the block. -/
def Starts (live : Prop) (c c' : Cleared) (m : Machine) (s t : State) : Prop :=
  Alike live c s t ∧ (s.litterBuf.isNone ∨ s.distBuf.isNone → c' = c) ∧
    (¬(s.litterBuf.isNone ∨ s.distBuf.isNone) →
      c' = c.behind m s.block ∧
        ∀ block ∈ s.block, m.isHeader block = false → s.Active → s.Own live c)

/-- An open response, whose own fields are set, looks the same. -/
theorem Alike.same {s t : State} (h : Alike live c s t) (hActive : s.Active)
    (hOwn : s.Own live c) :
    Same live c { s with httpFlag := true } { t with httpFlag := true } := by
  obtain ⟨hResponse, hUchunk, hj⟩ := hOwn
  rcases h.setHttp true with hAround | ⟨_, _, _, _, _, _, _, _, -, hIdle, -⟩
  · refine ⟨hAround, fun _ => Or.inl ?_, fun _ => hj⟩
    rcases h.over with hEq | ⟨hc, hu⟩
    · exact hEq
    · rcases hUchunk with hSet | hSet
      · rw [hSet] at hc
        cases hc
      · rw [hu] at hSet
        cases hSet
  · exact absurd hActive (hIdle hResponse)

/-- A block behind a response that is not decompressed is skipped. -/
theorem processResponse_skips (headSize temp : Nat) :
    Agrees (fun s t => Alike live c s t ∧ ¬s.Active) (processResponse m headSize temp)
      (processResponse m headSize temp) (fun _ => Alike live c) fun e _ _ => e = .spin := by
  refine Rel.of_states fun u v huv => ?_
  obtain ⟨hAround | hIdle, hOff⟩ := huv
  · apply (processResponse_same headSize temp).conseq _ (fun _ _ _ h => h) fun _ _ _ h => h
    rintro _ _ ⟨rfl, rfl⟩
    exact ⟨hAround, fun h => absurd h hOff, fun h => absurd h hOff⟩
  · apply (processResponse_idle headSize temp).conseq _ (fun _ _ _ h => h) fun _ _ _ h => h
    rintro _ _ ⟨rfl, rfl⟩
    exact ⟨hIdle, hOff⟩

theorem processBlock_alike {c' : Cleared} :
    Agrees (Starts live c c' m) (processBlock m) (processBlock m) (fun _ => Alike live c')
      fun e _ _ => e = .spin := by
  refine Rel.get_bind_eq fun s t hst => ?_
  obtain ⟨hAlike, hNone, hSome⟩ := hst
  obtain ⟨hBlock, -, -, hLitter, hDist⟩ := hAlike.reads
  have hStart : ∀ {d : Cleared} (u v : State), d = c' → Alike live d s t → u = s ∧ v = t →
      Alike live c' u v := by
    rintro d u v rfl h ⟨rfl, rfl⟩
    exact h
  dsimp only
  rw [hBlock, hLitter, hDist]
  cases hs : s.block with
  | none =>
    refine Agrees.pure fun u v huv => hStart u v ?_ hAlike huv
    by_cases hBuffers : s.litterBuf.isNone ∨ s.distBuf.isNone
    · exact (hNone hBuffers).symm
    · rw [(hSome hBuffers).1, hs, Cleared.behind]
  | some block =>
    refine Rel.ite Iff.rfl (fun hBuffers => ?_) fun hBuffers => ?_
    · exact Agrees.pure fun u v huv => hStart u v (hNone hBuffers).symm hAlike huv
    obtain ⟨hBehind, hOwn⟩ := hSome hBuffers
    rw [hs, Cleared.behind] at hBehind
    replace hOwn := hOwn block hs
    cases hHeader : m.isHeader block with
    | true =>
      rw [hHeader, if_pos rfl] at hBehind
      refine Agrees.bind (Q := fun _ => Alike live c) (Agrees.modify fun u v huv => ?_) fun _ => ?_
      · obtain ⟨rfl, rfl⟩ := huv
        exact hAlike.setHttp false
      · rw [hBehind]
        exact Agrees.bind (header_same _ _) fun _ => processResponse_same _ _
    | false =>
      rw [hHeader, if_neg Bool.false_ne_true] at hBehind
      subst hBehind
      by_cases hActive : s.Active
      · refine Agrees.bind (Q := fun _ => Same live c') (Agrees.modify fun u v huv => ?_) fun _ =>
          Agrees.bind (Q := fun _ => Same live c') (Agrees.pure fun _ _ h => h) fun _ =>
            processResponse_same _ _
        obtain ⟨rfl, rfl⟩ := huv
        exact hAlike.same hActive (hOwn hHeader hActive)
      · refine Agrees.bind (Q := fun _ s t => Alike live c' s t ∧ ¬s.Active)
          (Agrees.modify fun u v huv => ?_) fun _ =>
            Agrees.bind (Q := fun _ s t => Alike live c' s t ∧ ¬s.Active)
              (Agrees.pure fun _ _ h => h) fun _ => processResponse_skips _ _
        obtain ⟨rfl, rfl⟩ := huv
        exact ⟨hAlike.setHttp true, hActive⟩

theorem State.startBlock_of_none {s : State} (h : s.startBlock = none) (c : Cleared) (m : Machine) :
    c.behind m s.startBlock = c := by
  rw [h, Cleared.behind]

/-- The choice of the block at the index `k`. -/
theorem Alike.starts {s t : State} (h : Alike live c s t) (hFits : s.Fits live c m) {k : Nat}
    (hBlock : s.down[k]? = s.down[match s.currentBlock with
      | none => 0
      | some c => c + 1]?) :
    Starts live c (c.behind m s.startBlock) m { s with currentBlock := some k }
      { t with currentBlock := some k } := by
  have hStart : State.block { s with currentBlock := some k } = s.down[match s.currentBlock with
      | none => 0
      | some c => c + 1]? := hBlock
  refine ⟨h.goto _, fun hBuffers => ?_, fun hBuffers => ?_⟩
  · have hNone : s.startBlock = none := if_pos hBuffers
    exact State.startBlock_of_none hNone c m
  · have hNext : s.startBlock = State.block { s with currentBlock := some k } :=
      (if_neg hBuffers).trans hStart.symm
    rw [State.Fits, hNext] at hFits
    refine ⟨by rw [hNext], fun block hb hHeader hActive => ?_⟩
    obtain ⟨hResponse, hUchunk, hj⟩ := hFits block hb hHeader hActive
    exact ⟨hResponse, hUchunk, hj⟩

/-- A call of `process_gzip_data` does the same in both states, if it returns. -/
theorem process_alike (m : Machine) {c' : Cleared} :
    Agrees (fun s t => Alike live c s t ∧ s.Fits live c m ∧ c' = c.behind m s.startBlock)
      (process m) (process m) (fun _ => Alike live c') fun e _ _ => e = .spin := by
  refine Rel.get_bind_eq fun s t hst => ?_
  obtain ⟨hAlike, hFits, rfl⟩ := hst
  obtain ⟨-, hNext, hCurrent, -, -⟩ := hAlike.reads
  have hGoto : ∀ k : Nat, (s.down[k]? = s.down[match s.currentBlock with
        | none => 0
        | some c => c + 1]?) → Agrees (fun u v => u = s ∧ v = t)
      (do modify fun s => { s with currentBlock := some k }
          processBlock m : Code Unit)
      (do modify fun s => { s with currentBlock := some k }
          processBlock m)
      (fun _ => Alike live (c.behind m s.startBlock)) fun e _ _ => e = .spin := by
    intro k hBlock
    refine Agrees.bind (Q := fun _ => Starts live c (c.behind m s.startBlock) m)
      (Agrees.modify fun u v huv => ?_) fun _ => processBlock_alike
    obtain ⟨rfl, rfl⟩ := huv
    exact hAlike.starts hFits hBlock
  dsimp only
  rw [hNext, hCurrent]
  cases hs : s.currentBlock with
  | none => exact hGoto 0 (by rw [hs])
  | some k =>
    have hIndex : s.nextBlock = if k + 1 < s.down.length then some (k + 1) else none := by
      rw [State.nextBlock, hs, Option.bind_some]
    by_cases hk : k + 1 < s.down.length
    · rw [hIndex, if_pos hk]
      exact hGoto (k + 1) (by rw [hs])
    · rw [hIndex, if_neg hk]
      refine Agrees.pure fun u v huv => ?_
      obtain ⟨rfl, rfl⟩ := huv
      have hStart : u.startBlock = none := by
        rw [State.startBlock, hs]
        split
        · rfl
        · exact List.getElem?_eq_none (Nat.le_of_not_lt hk)
      rw [State.startBlock_of_none hStart]
      exact hAlike

/-! ### Between the calls -/

/-- The parts of two heads, as in `Alike`. -/
def Resembles (live : Prop) (c : Cleared) (g g' : Gzip) : Prop :=
  (∃ head length uchunkFlag, g' = { g with head, length, uchunkFlag } ∧
    Ready live g.head head ∧
      Over c g.httpFlag g.uchunkFlag uchunkFlag) ∨
    ∃ head httpFlag textFlag gzipFlag uchunkFlag chunkSize headSize length,
      g' = { g with head, httpFlag, textFlag, gzipFlag, uchunkFlag, chunkSize, headSize,
                    length } ∧
        (c.response = true → ¬g.Active) ∧ ¬g'.Active ∧
          Over c g.httpFlag g.uchunkFlag uchunkFlag ∧ (live → Stale g.head head)

theorem Resembles.start {g g' : Gzip} (h : Resembles live c g g') (down : List Segment)
    (gkState : Int) : Alike live c (State.start down g gkState) (State.start down g' gkState) := by
  rcases h with ⟨head, length, uchunkFlag, rfl, h⟩ |
    ⟨head, http, text, gzip, uchunkFlag, chunk, size, length, rfl, h⟩
  · exact Or.inl ⟨head, length, uchunkFlag, rfl, h⟩
  · exact Or.inr ⟨head, http, text, gzip, uchunkFlag, chunk, size, length, rfl, h⟩

theorem Alike.resembles {s t : State} (h : Alike live c s t) :
    Resembles live c s.toGzip t.toGzip ∧ t.gkState = s.gkState := by
  rcases h with ⟨head, length, uchunkFlag, rfl, h⟩ |
    ⟨head, http, text, gzip, uchunkFlag, chunk, size, length, rfl, h⟩
  · exact ⟨Or.inl ⟨head, length, uchunkFlag, rfl, h⟩, rfl⟩
  · exact ⟨Or.inr ⟨head, http, text, gzip, uchunkFlag, chunk, size, length, rfl, h⟩, rfl⟩

/-- `process_gzip_data` returns. -/
def Machine.Returns (m : Machine) (down : List Segment) (g : Gzip) (gkState : Int) : Prop :=
  ∃ s, process m (State.start down g gkState) = .ok () s

/-- A call of `process_gzip_data`, where it returns. -/
theorem Resembles.process {g g' : Gzip} {down : List Segment} {gkState : Int}
    (h : Resembles live c g g') (hFits : (State.start down g gkState).Fits live c m)
    (hReturns : m.Returns down g gkState) :
    Resembles live (c.behind m (State.start down g gkState).startBlock)
        ((process m).final (State.start down g gkState)).toGzip
        ((process m).final (State.start down g' gkState)).toGzip ∧
      ((process m).final (State.start down g' gkState)).gkState =
        ((process m).final (State.start down g gkState)).gkState := by
  obtain ⟨s, hRun⟩ := hReturns
  have hEnds := (process_alike m).ends _ _ ⟨h.start down gkState, hFits, rfl⟩
  rw [hRun] at hEnds
  cases hRun' : Gunzip.process m (State.start down g' gkState) with
  | ok u t =>
    rw [hRun'] at hEnds
    have hFinal : (Gunzip.process m).final (State.start down g gkState) = s := by
      rw [Code.final, hRun]
    have hFinal' : (Gunzip.process m).final (State.start down g' gkState) = t := by
      rw [Code.final, hRun']
    rw [hFinal, hFinal']
    exact hEnds.2.resembles
  | error e t =>
    rw [hRun'] at hEnds
    exact hEnds.elim

theorem Over.same {http u u' : Bool} (h : Over c http u u') (hc : c.uchunk = true ∨ u = false) :
    u' = u := by
  rcases h with hEq | ⟨hLeft, rfl⟩
  · exact hEq
  · rcases hc with hc | hc
    · rw [hc] at hLeft
      cases hLeft
    · cases hc

theorem Resembles.sameParser {g g' : Gzip} (h : Resembles live c g g') : SameParser c g g' := by
  rcases h with ⟨head, length, uchunkFlag, rfl, h, hOver⟩ |
    ⟨head, http, text, gzip, uchunkFlag, chunk, size, length, rfl, hIdle, hIdle', hOver, -⟩
  · exact ⟨rfl, rfl, hOver.same, fun _ => rfl, fun _ _ _ => ⟨rfl, rfl, rfl, h.same⟩⟩
  · refine ⟨rfl, rfl, hOver.same, fun hc => ?_, fun hc hText hGzip =>
      absurd ⟨hText, hGzip⟩ (hIdle hc)⟩
    have hNone : ∀ x : Gzip, ¬x.Active → (x.textFlag && x.gzipFlag) = false := fun x hx => by
      rw [Bool.eq_false_iff]
      exact fun h => hx (Bool.and_eq_true_iff.mp h)
    rw [hNone _ hIdle', hNone _ (hIdle hc)]

theorem Resembles.sameCounters {g g' : Gzip} (h : Resembles live c g g') : SameCounters g g' := by
  rcases h with ⟨_, _, _, rfl, -⟩ | ⟨_, _, _, _, _, _, _, _, rfl, -⟩ <;>
    exact ⟨rfl, rfl, rfl⟩

end Process

end Shutter.Gunzip
