import Shutter.Gunzip.Flushes.Performs

/-! The parts of `inflate_codes` and its loop, as programs that store tokens. -/

namespace Shutter.Gunzip

open Shutter.Library

section Parts

variable {env : Env} {k : Kept} {b b' : Buffers} {made : List (List (UInt8 × Nat))}
  {src src' : Source} {v : Codes} {t : HuftPtr}

/-- The next bits are those of `src`, at the flag and with the entry in the head. -/
structure FromAt (k : Kept) (src : Source) (flag : Nat) (tt : Option HuftPtr)
    (s : State) : Prop where
  source : s.source = src
  flag_eq : s.flag = flag
  kept : s.kept = k
  tt : s.head.tt = tt

theorem performs_modifyHead {f : Head → Head} (hf : KeepsHead f) :
    Performs env k b (From k src) (modifyHead f) ([], some b) (From k src) fun _ _ => True :=
  Performs.modify fun _ s hHolding hs => ⟨hHolding.congr ⟨rfl, rfl, rfl, rfl, rfl⟩, hs.source,
    hs.flag_eq, (hf.kept s).trans hs.kept⟩

theorem performs_keep {f : Head → Head} {tt : Option HuftPtr} (hf : KeepsHead f)
    (hTt : ∀ h, (f h).tt = tt) :
    Performs env k b (From k src) (modifyHead f) ([], some b) (FromAt k src 0 tt) fun _ _ => True :=
  Performs.modify fun _ s hHolding hs => ⟨hHolding.congr ⟨rfl, rfl, rfl, rfl, rfl⟩, hs.source,
    hs.flag_eq, (hf.kept s).trans hs.kept, hTt s.head⟩

theorem performs_setFlag {i flag : Nat} {tt : Option HuftPtr} :
    Performs env k b (FromAt k src i tt) (setFlag flag) ([], some b) (FromAt k src flag tt)
      fun _ _ => True :=
  Performs.modify fun _ _ hHolding hs =>
    ⟨hHolding.congr ⟨rfl, rfl, rfl, rfl, rfl⟩, hs.source, rfl, hs.kept, hs.tt⟩

theorem performs_needBits {n flag : Nat} {tt : Option HuftPtr} (hFill : src.fill n = some src')
    (hFuel : src.input.length < env.fuel) :
    Performs env k b (FromAt k src flag tt) (needBits env n env.fuel) ([], some b)
      (FromAt k src' flag tt) fun _ _ => True := by
  intro made
  refine Triple.of_state fun s ⟨hHolding, hS⟩ => ?_
  have hRead : Triple (fun t => ReadTo s src flag t ∧ t.head.tt = tt) (needBits env n env.fuel)
      (fun _ t => ReadTo s src' flag t ∧ t.head.tt = tt) fun _ _ => False :=
    readTo_needBits_tt hFill hFuel
  refine hRead.conseq (fun t ht => ?_) (fun _ t ht => ?_) fun _ _ h => h.elim
  · subst ht
    exact ⟨⟨hS.source, ⟨rfl, rfl, rfl, rfl, rfl⟩, hS.flag_eq, rfl⟩, hS.tt⟩
  · refine ⟨b, rfl, trivial, by simp, ?_, ht.1.source, ht.1.flag_eq,
      ht.1.kept.trans hS.kept, ht.2⟩
    rw [List.append_nil]
    exact hHolding.congr ht.1.tokens

theorem Performs.fromFlag {α : Type} {S' : State → Prop} {i : Nat} {a : α}
    {x : Code α} {r : Stores} {p : α → Buffers → Prop}
    (hx : Performs env k b (From k src) x r S' p) :
    Performs env k b (From k src) (fromFlag i a x) r S' p :=
  Performs.get_bind fun _ _ _ hs made =>
    Triple.ite (fun _ => hx made) fun hNot => absurd (Or.inl hs.flag_eq) hNot

theorem Performs.bits {α : Type} {S S' : State → Prop} {n : Nat}
    {f : Nat → Code α} {r : Stores} {p : α → Buffers → Prop}
    (hS : ∀ s, S s → s.source = src) (hf : Performs env k b S (f (src.bits n)) r S' p) :
    Performs env k b S (bits n >>= f) r S' p :=
  fun made => Triple.bind_eq (Triple.get_bind' fun s hs => Triple.pure fun _ ht =>
    ⟨by rw [← hS s hs.2]; rfl, ht⟩) (hf made)

theorem Performs.conseq {α : Type} {S S₁ S' : State → Prop} {x : Code α} {r : Stores}
    {p : α → Buffers → Prop} (hx : Performs env k b S x r S' p) (hS : ∀ s, S₁ s → S s) :
    Performs env k b S₁ x r S' p :=
  fun made => (hx made).conseq (fun s hs => ⟨hs.1, hS s hs.2⟩) (fun _ _ h => h) fun _ _ h => h

theorem performs_dumpBits (n : Nat) :
    Performs env k b (From k src) (dumpBits n) ([], some b) (From k (src.dump n)) fun _ _ => True :=
  Performs.modify fun _ s hHolding hs =>
    ⟨hHolding.congr ⟨rfl, rfl, rfl, rfl, rfl⟩, by rw [← hs.source]; rfl,
      hs.flag_eq, hs.kept⟩

theorem performs_record {e : Nat → Nat → Event}
    (he : ∀ lit dist c, e lit dist ≠ .called c) :
    Performs env k b (From k src) (recordToken e) ([], some b) (From k src) fun _ _ => True := by
  refine Performs.modify fun made s hs hFrom =>
    ⟨⟨hs.litterBuf, hs.distBuf, hs.lit, hs.dist, ?_⟩,
    hFrom.source, hFrom.flag_eq, hFrom.kept⟩
  have hNone : calls [e s.lit s.dist] = [] := by
    rw [calls, List.filterMap_cons]
    cases hEvent : e s.lit s.dist with
    | called c => exact absurd hEvent (he _ _ c)
    | _ => rfl
  rw [← hs.made, calls, List.filterMap_append]
  exact congrArg (List.map MatchCall.tokens) ((congrArg _ hNone).trans (List.append_nil _))

theorem map_set {α : Type} {buf : Option (Buffer α)} {f : Nat → α}
    (h : buf.map Buffer.at_ = some f) (i : Nat) (x : α) :
    (buf.map fun b => b.set i x).map Buffer.at_ = some fun j => if j = i then x else f j := by
  obtain ⟨b, rfl, rfl⟩ := Option.map_eq_some_iff.mp h
  rfl

theorem performs_putLit (x : UInt8) :
    Performs env k b (From k src) (putLit x) ([], some (b.putLit x)) (From k src) fun _ _ => True :=
  Performs.modify fun _ s hs hFrom =>
    ⟨⟨hs.lit ▸ map_set hs.litterBuf s.lit x, hs.distBuf, congrArg (· + 1) hs.lit,
      hs.dist, hs.made⟩,
      hFrom.source, hFrom.flag_eq, hFrom.kept⟩

theorem performs_putDist (x : Nat) :
    Performs env k b (From k src) (putDist x) ([], some (b.putDist x))
      (From k src) fun _ _ => True :=
  Performs.modify fun _ s hs hFrom =>
    ⟨⟨hs.litterBuf, hs.dist ▸ map_set hs.distBuf s.dist x, hs.lit,
      congrArg (· + 1) hs.dist, hs.made⟩,
      hFrom.source, hFrom.flag_eq, hFrom.kept⟩

/-- A full buffer is flushed. -/
theorem performs_flushAt {counter : Nat} (hLoop : v.loop = b.loop) :
    Performs env k b (From k src) (onlyIf (counter = litBufsize) v (flush env v))
      (b.flushAt counter) (From k src) fun v' b' => v' = { v with loop := b'.loop } := by
  intro made
  rw [Buffers.flushAt]
  split
  · next hFull =>
    rw [onlyIf, if_pos hFull]
    exact performs_flush hLoop made
  · next hRoom =>
    rw [onlyIf, if_neg hRoom]
    exact Performs.pure (congrArg (Codes.mk v.e v.t v.loopFlag) hLoop) made

theorem performs_literal (hT : v.t = some t) (hLoop : v.loop = b.loop) :
    Performs env k b (From k src) (literal env v)
      (((b.putLit t.get.n.toUInt8).putDist 0).flushAt (b.lit + 1)) (From k src)
      fun v' b' => v' = { v with loop := b'.loop } := by
  have hEntry : v.entry = t.get := by rw [Codes.entry, hT]; rfl
  refine Performs.next (performs_modifyHead fun _ => ⟨rfl, rfl⟩) fun _ _ => ?_
  rw [if_neg (by rw [hT]; nofun), hEntry]
  exact Performs.next (performs_record (by nofun)) fun _ _ =>
    Performs.next (performs_putLit _) fun _ _ =>
    Performs.next (performs_putDist _) fun _ _ => Performs.get_bind fun _ s hs _ => by
      rw [hs.lit]
      exact performs_flushAt hLoop

theorem performs_countRounds (hLoop : v.loop = b.loop) (hFlag : v.loopFlag = b.loopFlag) :
    Performs env k b (From k src) (countRounds v) ([], b.count v.e) (From k src)
      fun v' b' => ∃ w, v' = some w ∧ w.loop = b'.loop ∧ w.loopFlag = b'.loopFlag := by
  intro made
  unfold countRounds Buffers.count
  rw [← hFlag]
  refine Triple.ite (fun hZero => Triple.ite (fun hMany => ?_) fun hFew => ?_) fun hBits => ?_
  · refine Triple.bind (Q := fun _ s => (calls s.trace).map MatchCall.tokens = made ∧
      s.gkState = k.gkState) (Triple.modify fun s hs =>
        ⟨hs.1.made, congrArg Kept.gkState hs.2.kept⟩)
      fun _ => Triple.throw fun s hs => ?_
    exact ⟨rfl, by rw [hs.1]; simp [through], Or.inl (by rw [if_pos hZero, if_pos hMany]), hs.2⟩
  · refine Triple.pure fun s hs =>
      ⟨{ b with loopFlag := v.loopFlag + 1 }, ?_, ⟨_, rfl, hLoop, rfl⟩,
      by simp, ?_, hs.2⟩
    · rw [if_pos hZero, if_neg hFew]
    · rw [List.append_nil]
      exact ⟨hs.1.litterBuf, hs.1.distBuf, hs.1.lit, hs.1.dist, hs.1.made⟩
  · refine Triple.pure fun s hs =>
      ⟨{ b with loopFlag := 0 }, if_neg hBits, ⟨_, rfl, hLoop, rfl⟩,
      by simp, ?_, hs.2⟩
    rw [List.append_nil]
    exact ⟨hs.1.litterBuf, hs.1.distBuf, hs.1.lit, hs.1.dist, hs.1.made⟩

/-- The length of a copy is read at its flag. -/
theorem performs_copyLength (hT : v.t = some t) (hLoop : v.loop = b.loop)
    (hFill : src.fill v.e = some src') (hFuel : src.input.length < env.fuel) :
    Performs env k b (From k src) (copyLength env v)
      (b.putLength (t.get.n + src'.bits v.e + 2 ^ 16 - 3).toUInt8) (From k (src'.dump v.e))
      fun v' b' => v' = { v with loop := b'.loop } := by
  have hEntry : v.entry = t.get := by rw [Codes.entry, hT]; rfl
  have hKeep : Performs env k b (From k src) (modifyHead fun h => { h with ee := v.e, tt := v.t })
      ([], some b) (FromAt k src 0 v.t) fun _ _ => True :=
        performs_keep (fun _ => ⟨rfl, rfl⟩) fun _ => rfl
  have hClear : Performs env k b (FromAt k src' 11 v.t) (setFlag 0) ([], some b)
      (FromAt k src' 0 v.t) fun _ _ => True := performs_setFlag
  refine Performs.fromFlag (Performs.next hKeep fun _ _ => Performs.next performs_setFlag fun _ _ =>
    Performs.next (performs_needBits hFill hFuel) fun _ _ => Performs.next hClear fun _ _ =>
    Performs.get_bind fun _ s _ hs => ?_)
  rw [if_neg (by rw [hs.tt, hT]; nofun), hEntry]
  refine Performs.bits (fun _ hs => hs.1) (Performs.conseq (S := From k src') ?_
    fun s hs => ⟨hs.source, hs.flag_eq, hs.kept⟩)
  refine Performs.next (performs_record (by nofun)) fun _ _ =>
    Performs.next (performs_putLit _) fun _ _ =>
    Performs.get_bind fun _ s hs _ => ?_
  rw [hs.lit]
  refine Performs.before (performs_flushAt hLoop) fun v' b' hv => ?_
  subst hv
  exact Performs.next (performs_dumpBits v.e) fun _ _ => Performs.pure rfl

/-- The distance of a copy is read at its flag. -/
theorem performs_copyDist (hT : v.t = some t) (hLoop : v.loop = b.loop)
    (hFill : src.fill v.e = some src') (hFuel : src.input.length < env.fuel) :
    Performs env k b (From k src) (copyDist env v)
      (b.putDistance ((t.get.n + src'.bits v.e) % 2 ^ 16)) (From k (src'.dump v.e))
      fun v' b' => v' = { v with loop := b'.loop } := by
  have hEntry : v.entry = t.get := by rw [Codes.entry, hT]; rfl
  have hSet : Performs env k b (From k src) (setFlag 14) ([], some b)
      (fun s => s.source = src ∧ s.flag = 14 ∧ s.kept = k) fun _ _ => True :=
    Performs.modify fun _ _ hHolding hs =>
      ⟨hHolding.congr ⟨rfl, rfl, rfl, rfl, rfl⟩, hs.source, rfl, hs.kept⟩
  have hKeep : Performs env k b (fun s => s.source = src ∧ s.flag = 14 ∧ s.kept = k)
      (modifyHead fun h => { h with tt := v.t }) ([], some b)
        (FromAt k src 14 v.t) fun _ _ => True :=
    Performs.modify fun _ _ hHolding hs =>
      ⟨hHolding.congr ⟨rfl, rfl, rfl, rfl, rfl⟩, hs.1, hs.2.1, hs.2.2, rfl⟩
  have hClear : Performs env k b (FromAt k src' 14 v.t) (setFlag 0) ([], some b)
      (FromAt k src' 0 v.t) fun _ _ => True := performs_setFlag
  refine Performs.fromFlag (Performs.next hSet fun _ _ => Performs.next hKeep fun _ _ =>
    Performs.next (performs_needBits hFill hFuel) fun _ _ => Performs.next hClear fun _ _ =>
    Performs.get_bind fun _ s hHolding hs => ?_)
  have hThere : ¬(s.head.tt = none ∨ v.t = none ∨ s.distBuf.isNone) := by
    rw [hs.tt, hT]
    have hDist : s.distBuf.isNone = false := by
      obtain ⟨buf, hBuf, -⟩ := Option.map_eq_some_iff.mp hHolding.distBuf
      rw [hBuf]
      rfl
    simp [hDist]
  rw [if_neg hThere, hEntry]
  refine Performs.bits (fun _ hs => hs.1) (Performs.conseq (S := From k src') ?_
    fun s hs => ⟨hs.source, hs.flag_eq, hs.kept⟩)
  refine Performs.next (performs_record (by nofun)) fun _ _ =>
    Performs.next (performs_putDist _) fun _ _ =>
    Performs.get_bind fun _ s hs _ => ?_
  rw [hs.dist]
  refine Performs.before (performs_flushAt hLoop) fun v' b' hv => ?_
  subst hv
  exact Performs.next (performs_dumpBits v.e) fun _ _ => Performs.pure rfl

/-! ### The loop -/

variable {tl td : HuftPtr} {bl bd : Nat}

theorem code_split {fuel n : Nat} {t t' : HuftPtr} (h : code fuel t n src = some (t', src')) :
    ∃ src₁ src₂, src.fill n = some src₁ ∧ walk fuel (t.add (src₁.bits n)) src₁ =
      some (t', src₂) ∧
      src' = src₂.dump t'.get.b := by
  obtain ⟨src₁, hFill, hRest⟩ := Option.bind_eq_some_iff.mp h
  obtain ⟨⟨t₁, src₂⟩, hWalk, hEnd⟩ := Option.map_eq_some_iff.mp hRest
  obtain ⟨rfl, rfl⟩ := Prod.mk.inj hEnd
  exact ⟨src₁, src₂, hFill, hWalk, rfl⟩

theorem performs_litCode {α : Type} {S' : State → Prop} {f : Codes → Code α} {r : Stores}
    {p : α → Buffers → Prop} (hFuel : src.input.length < env.fuel)
    (hCode : code env.fuel tl bl src = some (t, src'))
    (hf : Performs env k b (From k src') (f (v.at_ t)) r S' p) :
    Performs env k b (From k src) (firstBits env bl v >>= fun _ =>
      litCode env tl bl v >>= f) r S' p := by
  obtain ⟨src₁, src₂, hFill, hWalk, rfl⟩ := code_split hCode
  refine Performs.next (Performs.quiet fun s₀ =>
    (readTo_firstBits hFill hFuel).conseq (fun _ h => h)
    (fun _ _ h => ⟨Subsingleton.elim _ (), h⟩) fun _ _ h => h) fun _ _ => ?_
  refine Performs.next (Performs.quiet fun s₀ =>
    readTo_litCode (Nat.lt_of_le_of_lt (fill_input hFill) hFuel) hWalk) fun v' hv => ?_
  exact hv ▸ hf

theorem performs_distCode {α : Type} {S' : State → Prop} {f : Codes → Code α} {r : Stores}
    {p : α → Buffers → Prop} (hFuel : src.input.length < env.fuel)
    (hCode : code env.fuel td bd src = some (t, src'))
    (hf : Performs env k b (From k src') (f (v.at_ t)) r S' p) :
    Performs env k b (From k src) (distBits env bd v >>= fun _ =>
      distCode env td bd v >>= f) r S' p := by
  obtain ⟨src₁, src₂, hFill, hWalk, rfl⟩ := code_split hCode
  refine Performs.next (Performs.quiet fun s₀ =>
    (readTo_distBits hFill hFuel).conseq (fun _ h => h)
    (fun _ _ h => ⟨Subsingleton.elim _ (), h⟩) fun _ _ h => h) fun _ _ => ?_
  refine Performs.next (Performs.quiet fun s₀ =>
    readTo_distCode (Nat.lt_of_le_of_lt (fill_input hFill) hFuel) hWalk) fun v' hv => ?_
  exact hv ▸ hf

theorem flushAt_loopFlag {k : Nat} (h : (b.flushAt k).2 = some b') : b'.loopFlag = b.loopFlag := by
  unfold Buffers.flushAt Buffers.flushed at h
  split_ifs at h <;> obtain rfl := Option.some.inj h <;> rfl

/-- The variables of the program are those of the buffers. -/
def InLoop (v : Codes) (b : Buffers) : Prop := v.loop = b.loop ∧ v.loopFlag = b.loopFlag

theorem performs_literalRound (hFuel : src.input.length < env.fuel)
    (hCode : code env.fuel tl bl src = some (t, src')) (hLit : t.get.e = 16) (hLoop : InLoop v b) :
    Performs env k b (From k src) (codesRound env tl td bl bd v)
      (b.store (.literal t.get.n.toUInt8)) (From k src')
      fun next b' => ∃ w, next = some w ∧ InLoop w b' := by
  refine performs_litCode hFuel hCode ?_
  rw [if_pos (show (v.at_ t).e = 16 from hLit)]
  refine Performs.bind (performs_literal rfl hLoop.1) fun v' b' hb' hv => ?_
  subst hv
  have hFlag : v.loopFlag = b'.loopFlag := hLoop.2.trans (flushAt_loopFlag hb').symm
  exact hLit ▸ performs_countRounds (v := { v.at_ t with loop := b'.loop }) rfl hFlag

theorem performs_copyRound {src₁ src₂ src₃ src₄ : Source} {t' : HuftPtr}
    (hFuel : src.input.length < env.fuel) (hCode : code env.fuel tl bl src = some (t, src₁))
    (hNotEnd : t.get.e ≠ 15) (hNotLit : t.get.e ≠ 16)
    (hFill : src₁.fill t.get.e = some src₂)
    (hDist : code env.fuel td bd (src₂.dump t.get.e) = some (t', src₃))
    (hFill' : src₃.fill t'.get.e = some src₄) (hLoop : InLoop v b) :
    Performs env k b (From k src) (codesRound env tl td bl bd v)
      (b.store (.copy (t.get.n + src₂.bits t.get.e + 2 ^ 16 - 3).toUInt8
        ((t'.get.n + src₄.bits t'.get.e) % 2 ^ 16) t'.get.e)) (From k (src₄.dump t'.get.e))
      fun next b' => ∃ w, next = some w ∧ InLoop w b' := by
  have hFuel₁ : src₁.input.length < env.fuel := Nat.lt_of_le_of_lt (code_input hCode) hFuel
  have hRead : src₂.input.length ≤ src₁.input.length := fill_input hFill
  have hFuel₂ : (src₂.dump t.get.e).input.length < env.fuel := Nat.lt_of_le_of_lt hRead hFuel₁
  have hFuel₃ : src₃.input.length < env.fuel := Nat.lt_of_le_of_lt (code_input hDist) hFuel₂
  refine performs_litCode hFuel hCode ?_
  rw [if_neg (show (v.at_ t).e ≠ 16 from hNotLit), if_neg (show (v.at_ t).e ≠ 15 from hNotEnd)]
  refine Performs.bind (performs_copyLength (v := v.at_ t) rfl hLoop.1 hFill hFuel₁)
    fun v₁ b₁ hb₁ hv₁ => ?_
  subst hv₁
  refine performs_distCode hFuel₂ hDist ?_
  refine Performs.bind
    (performs_copyDist (v := ({ v.at_ t with loop := b₁.loop } : Codes).at_ t') rfl rfl
    hFill' hFuel₃) fun v₂ b₂ hb₂ hv₂ => ?_
  subst hv₂
  have hFlag₁ : b₁.loopFlag = (b.putLit _).loopFlag := flushAt_loopFlag hb₁
  have hFlag₂ : b₂.loopFlag = (b₁.putDist _).loopFlag := flushAt_loopFlag hb₂
  have hFlag : v.loopFlag = b₂.loopFlag := hLoop.2.trans (hFlag₂.trans hFlag₁).symm
  exact performs_countRounds
    (v := { ({ v.at_ t with loop := b₁.loop } : Codes).at_ t' with loop := b₂.loop }) rfl hFlag

/-- The next bits behind a block are those of `out`, if the chunk goes on behind the input. -/
structure Behind (k : Kept) (out : Source) (s : State) : Prop where
  flag_eq : s.flag = 0
  kept : s.kept = { k with chunkSize := s.chunkSize, flag := 0 }
  next : toUnsigned k.chunkSize ≠ k.insize → s.source = out ∧ s.chunkSize = k.chunkSize

theorem performs_endOfBlock :
    Performs env k b (From k src) endOfBlock ([], some b) (Behind k src) fun _ _ => True := by
  intro made
  refine Triple.conseq (P := fun s => Holding b made s ∧ From k src s)
    (Q := fun _ s => Holding b made s ∧ Behind k src s) ?_ (fun _ hs => hs)
    (fun _ s hs => ⟨b, rfl, trivial, by simp, by rw [List.append_nil]; exact hs.1, hs.2⟩)
      fun _ _ h => h
  let Cut := fun s : State => s.flag = 0 ∧ s.kept = { k with chunkSize := s.chunkSize } ∧
    (toUnsigned k.chunkSize ≠ k.insize → s.source = src ∧ s.chunkSize = k.chunkSize)
  refine Triple.get_bind' fun s hs => Triple.bind (Q := fun _ s => Holding b made s ∧ Cut s)
    (Triple.ite (fun hEnd => Triple.modify fun t ht => ?_) fun hMore => Triple.pure fun t ht =>
      ?_) fun _ => ?_
  · have hSizes : toUnsigned k.chunkSize = k.insize := by
      rw [← hs.2.kept]
      exact hEnd
    refine ⟨ht.1.congr ⟨rfl, rfl, rfl, rfl, rfl⟩, ht.2.flag_eq, ?_, fun hNot =>
      absurd hSizes hNot⟩
    rw [← ht.2.kept]
    rfl
  · have hChunk : t.chunkSize = k.chunkSize := congrArg Kept.chunkSize ht.2.kept
    exact ⟨ht.1, ht.2.flag_eq, by rw [hChunk, ht.2.kept], fun _ => ⟨ht.2.source, hChunk⟩⟩
  refine Triple.bind (Q := fun _ s => Holding b made s ∧ Behind k src s)
    (Triple.modify fun t ht => ?_)
    fun _ => Triple.get_bind' fun _ _ => Triple.ite (fun _ => Triple.modify fun t ht =>
      ⟨ht.1.congr ⟨rfl, rfl, rfl, rfl, rfl⟩, ht.2.flag_eq, ht.2.kept, ht.2.next⟩) fun _ =>
    Triple.pure fun _ ht => ht
  refine ⟨ht.1.congr ⟨rfl, rfl, rfl, rfl, rfl⟩, ht.2.1, ?_, ht.2.2.2⟩
  have hKept := ht.2.2.1
  simp only [State.kept, Kept.mk.injEq] at hKept ⊢
  exact ⟨trivial, hKept.2.1, hKept.2.2.1, trivial, hKept.2.2.2.2⟩

theorem performs_endRound (hFuel : src.input.length < env.fuel)
    (hCode : code env.fuel tl bl src = some (t, src')) (hEnd : t.get.e = 15) :
    Performs env k b (From k src) (codesRound env tl td bl bd v) ([], some b) (Behind k src')
      fun next _ => next = none := by
  refine performs_litCode hFuel hCode ?_
  have hNotLit : (v.at_ t).e ≠ 16 := fun hLit => absurd (hEnd.symm.trans hLit) (by decide)
  rw [if_neg hNotLit, if_pos (show (v.at_ t).e = 15 from hEnd)]
  refine fun made => Triple.bind (performs_endOfBlock made) fun _ => Triple.pure fun s hs => ?_
  obtain ⟨b', hSome, -, hRest⟩ := hs
  exact ⟨b', hSome, rfl, hRest⟩

variable {out : Source}

/-- The loop stores the tokens that the tables decode. -/
theorem performs_codesLoop {tokens : List Token} (h : Decodes tl td bl bd env.fuel src tokens out)
    (hFuel : src.input.length < env.fuel) {fuel : Nat} (hCount : tokens.length < fuel)
    (hLoop : InLoop v b) :
    Performs env k b (From k src) (codesLoop env tl td bl bd fuel v) (b.run tokens)
      (Behind k out) fun _ _ => True := by
  induction h generalizing b v fuel with
  | stop hCode hEnd =>
    obtain ⟨fuel, rfl⟩ := Nat.exists_eq_add_of_lt hCount
    refine fun made => Triple.bind (performs_endRound hFuel hCode hEnd made) fun next =>
      Triple.of_state fun s ⟨b', hSome, hNext, hRest⟩ => ?_
    subst hNext
    exact Triple.pure fun t ht => by subst ht; exact ⟨b', hSome, trivial, hRest⟩
  | literal hCode hLit _ ih =>
    obtain ⟨fuel, rfl⟩ : ∃ k, fuel = k + 1 := ⟨fuel - 1, by omega⟩
    refine Performs.bind (performs_literalRound hFuel hCode hLit hLoop)
      fun next b' _ ⟨w, hNext, hLoop'⟩ => ?_
    subst hNext
    exact ih (Nat.lt_of_le_of_lt (code_input hCode) hFuel) (Nat.lt_of_succ_lt_succ hCount) hLoop'
  | copy hCode hNotEnd hNotLit hFill hDist hFill' _ ih =>
    obtain ⟨fuel, rfl⟩ : ∃ k, fuel = k + 1 := ⟨fuel - 1, by omega⟩
    refine Performs.bind (performs_copyRound hFuel hCode hNotEnd hNotLit hFill hDist hFill' hLoop)
      fun next b' _ ⟨w, hNext, hLoop'⟩ => ?_
    subst hNext
    refine ih ?_ (Nat.lt_of_succ_lt_succ hCount) hLoop'
    have := fill_input hFill'
    have := code_input hDist
    have := fill_input hFill
    have := code_input hCode
    simp only [Source.dump] at *
    omega

end Parts

end Shutter.Gunzip
