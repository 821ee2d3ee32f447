import Shutter.Gunzip.Tokens

/-! The tokens of a block, as its tables decode them from the bits: what `inflate_codes` reads when
all of the input is there, without the buffers that it stores the tokens in. -/

namespace Shutter.Gunzip

open Shutter.Library

/-! ### Bits -/

/-- The bit buffer, and the bytes behind it. -/
structure Source where
  bb : Nat
  bk : Nat
  input : List UInt8
  deriving DecidableEq

/-- Bytes are read until `n` bits are in the buffer. -/
def fillBits (n bb bk : Nat) : List UInt8 → Option Source
  | [] => if n ≤ bk then some ⟨bb, bk, []⟩ else none
  | c :: input =>
    if n ≤ bk then some ⟨bb, bk, c :: input⟩
    else fillBits n (bb ||| (c.toNat <<< bk)) (bk + 8) input

def Source.fill (src : Source) (n : Nat) : Option Source := fillBits n src.bb src.bk src.input

def Source.dump (src : Source) (n : Nat) : Source :=
  { src with bb := src.bb >>> n, bk := (src.bk + 2 ^ 32 - n) % 2 ^ 32 }

def Source.bits (src : Source) (n : Nat) : Nat := src.bb % 2 ^ n

theorem fillBits_input {n bb bk : Nat} {input : List UInt8} {src : Source}
    (h : fillBits n bb bk input = some src) : src.input.length ≤ input.length := by
  induction input generalizing bb bk with
  | nil =>
    unfold fillBits at h
    split at h
    · obtain rfl := Option.some.inj h
      exact Nat.le_refl _
    · cases h
  | cons c input ih =>
    unfold fillBits at h
    split at h
    · obtain rfl := Option.some.inj h
      exact Nat.le_refl _
    · exact Nat.le_succ_of_le (ih h)

theorem fillBits_enough {n bb bk : Nat} {input : List UInt8} (h : n ≤ bk) :
    fillBits n bb bk input = some ⟨bb, bk, input⟩ := by
  cases input with
  | nil => exact if_pos h
  | cons c input => exact if_pos h

/-- The bytes of the input buffer that have not been read. -/
def State.ahead (s : State) : List UInt8 :=
  (List.range' s.inptr (s.insize - s.inptr)).map fun i => s.inbuf[i]?.getD 0

/-- The bits that the inflater reads next. -/
def State.source (s : State) : Source := ⟨s.bb, s.bk, s.ahead⟩

theorem ahead_cons {s : State} (h : s.inptr < s.insize) : s.ahead =
    s.inbuf[s.inptr]?.getD 0 :: { s with inptr := s.inptr + 1 }.ahead := by
  unfold State.ahead
  rw [show s.insize - s.inptr = s.insize - (s.inptr + 1) + 1 by omega, List.range'_succ]
  rfl

theorem ahead_nil {s : State} (h : ¬s.inptr < s.insize) : s.ahead = [] := by
  unfold State.ahead
  rw [Nat.sub_eq_zero_of_le (Nat.le_of_not_lt h)]
  rfl

/-- `NEEDBITS` reads what it needs when it is there. -/
theorem needBits_fill {env : Env} {n fuel : Nat} {s : State} {src : Source}
    (hFill : s.source.fill n = some src) (hFuel : s.ahead.length < fuel) :
    Triple (fun t => t = s) (needBits env n fuel)
      (fun _ t => t.source = src ∧
        ∃ inptr taken, t = { s with bb := src.bb, bk := src.bk, inptr, taken })
      fun _ _ => False := by
  induction fuel generalizing s with
  | zero => omega
  | succ fuel ih =>
    refine Triple.get_bind fun t ht => ?_
    subst ht
    refine Triple.ite (fun hFew => ?_) fun hEnough => Triple.pure fun u hu => ?_
    · by_cases hMore : t.inptr < t.insize
      · have hAhead := ahead_cons hMore
        rw [Source.fill, State.source, hAhead, fillBits, if_neg (Nat.not_le_of_lt hFew)] at hFill
        rw [hAhead, List.length_cons] at hFuel
        refine Triple.ite (fun _ => ?_) fun hNot => absurd hMore hNot
        let c := t.inbuf[t.inptr]?.getD 0
        let next : State := { t with
          bb := t.bb ||| (c.toNat <<< t.bk), bk := t.bk + 8, inptr := t.inptr + 1,
          taken := t.taken ++ [c] }
        have hNext : next.source.fill n = some src := hFill
        refine Triple.bind (Q := fun _ u => u = next) ⟨fun u hu => ?_⟩ fun _ =>
          (ih hNext (Nat.lt_of_succ_lt_succ hFuel)).conseq (fun _ hu => hu)
            (fun _ u hu => ?_) fun _ _ h => h
        · rfl
        · obtain ⟨hSource, inptr, taken, hu⟩ := hu
          exact ⟨hSource, inptr, taken, hu⟩
      · rw [Source.fill, State.source, ahead_nil hMore, fillBits,
          if_neg (Nat.not_le_of_lt hFew)] at hFill
        cases hFill
    · subst hu
      have hSame : u.source.fill n = some u.source := fillBits_enough (Nat.le_of_not_lt hEnough)
      obtain rfl := Option.some.inj (hSame.symm.trans hFill)
      exact ⟨rfl, u.inptr, u.taken, rfl⟩

/-- What does not change while the codes of a block are read: the sizes of the chunk and of the
input, the last block and the flag in the head, and the state of the connection. -/
structure Kept where
  chunkSize : Int
  insize : Nat
  e : Nat
  flag : Nat
  gkState : Int
  deriving DecidableEq

def State.kept (s : State) : Kept := ⟨s.chunkSize, s.insize, s.head.e, s.head.flag, s.gkState⟩

/-- Since `s₀` nothing has been stored: the next bits are those of `src`, at the flag. -/
structure ReadTo (s₀ : State) (src : Source) (flag : Nat) (s : State) : Prop where
  source : s.source = src
  tokens : SameTokens s₀ s
  flag_eq : s.flag = flag
  kept : s.kept = s₀.kept

section Read

variable {env : Env} {s₀ : State} {src src' : Source} {flag : Nat}

theorem ReadTo.congr {s t : State} {flag' : Nat} (h : ReadTo s₀ src flag s)
    (hSource : t.source = src') (hTokens : SameTokens s t) (hFlag : t.flag = flag')
    (hKept : t.kept = s.kept) : ReadTo s₀ src' flag' t :=
  ⟨hSource, ⟨hTokens.lit.trans h.tokens.lit, hTokens.dist.trans h.tokens.dist,
    hTokens.litterBuf.trans h.tokens.litterBuf, hTokens.distBuf.trans h.tokens.distBuf,
    hTokens.trace.trans h.tokens.trace⟩, hFlag, hKept.trans h.kept⟩

theorem readTo_modify {f : State → State} {flag' : Nat}
    (hf : ∀ s, ReadTo s₀ src flag s →
      (f s).source = src' ∧ SameTokens s (f s) ∧ (f s).flag = flag' ∧ (f s).kept = s.kept) :
    Triple (ReadTo s₀ src flag) (modify f : Code Unit) (fun _ => ReadTo s₀ src' flag')
      fun _ _ => False :=
  Triple.modify fun s hs => hs.congr (hf s hs).1 (hf s hs).2.1 (hf s hs).2.2.1 (hf s hs).2.2.2

/-- A change of the head that keeps what a block keeps. -/
def KeepsHead (f : Head → Head) : Prop := ∀ h, (f h).e = h.e ∧ (f h).flag = h.flag

theorem KeepsHead.kept {f : Head → Head} (hf : KeepsHead f) (s : State) :
    State.kept { s with head := f s.head } = s.kept := by
  unfold State.kept
  rw [(hf s.head).1, (hf s.head).2]

theorem readTo_modifyHead {f : Head → Head} (hf : KeepsHead f) :
    Triple (ReadTo s₀ src flag) (modifyHead f) (fun _ => ReadTo s₀ src flag) fun _ _ => False :=
  readTo_modify fun s hs => ⟨hs.source, ⟨rfl, rfl, rfl, rfl, rfl⟩, hs.flag_eq, hf.kept s⟩

theorem readTo_setFlag (flag' : Nat) : Triple (ReadTo s₀ src flag) (setFlag flag')
    (fun _ => ReadTo s₀ src flag') fun _ _ => False :=
  readTo_modify fun _ hs => ⟨hs.source, ⟨rfl, rfl, rfl, rfl, rfl⟩, rfl, rfl⟩

theorem readTo_dumpBits (n : Nat) : Triple (ReadTo s₀ src flag) (dumpBits n)
    (fun _ => ReadTo s₀ (src.dump n) flag) fun _ _ => False :=
  readTo_modify fun s hs =>
    ⟨by rw [← hs.source]; rfl, ⟨rfl, rfl, rfl, rfl, rfl⟩, hs.flag_eq, rfl⟩

theorem readTo_bits {α : Type} {n : Nat} {f : Nat → Code α} {Q : α → State → Prop}
    {E : Exit → State → Prop} (hf : Triple (ReadTo s₀ src flag) (f (src.bits n)) Q E) :
    Triple (ReadTo s₀ src flag) (bits n >>= f) Q E :=
  Triple.bind_eq (Triple.get_bind' fun s hs => Triple.pure fun t ht =>
    ⟨by rw [← hs.source]; rfl, ht⟩) hf

theorem readTo_needBits_tt {n fuel : Nat} {tt : Option HuftPtr} (hFill : src.fill n = some src')
    (hFuel : src.input.length < fuel) :
    Triple (fun s => ReadTo s₀ src flag s ∧ s.head.tt = tt) (needBits env n fuel)
      (fun _ s => ReadTo s₀ src' flag s ∧ s.head.tt = tt) fun _ _ => False := by
  refine Triple.of_state fun s ⟨hs, hTt⟩ => ?_
  have hSource : s.source.fill n = some src' := hs.source ▸ hFill
  have hAhead : s.ahead.length < fuel := by
    rw [← hs.source] at hFuel
    exact hFuel
  refine (needBits_fill hSource hAhead).conseq (fun _ ht => ht)
    (fun _ t ⟨hNext, inptr, taken, ht⟩ => ?_)
    fun _ _ h => h
  have hSame : SameTokens s t := by subst ht; exact ⟨rfl, rfl, rfl, rfl, rfl⟩
  have hFlag : t.flag = s.flag := by subst ht; rfl
  have hHead : t.head = s.head := by subst ht; rfl
  have hKept : t.kept = s.kept := by subst ht; rfl
  exact ⟨hs.congr hNext hSame (hFlag.trans hs.flag_eq) hKept, hHead ▸ hTt⟩

theorem readTo_needBits {n fuel : Nat} (hFill : src.fill n = some src')
    (hFuel : src.input.length < fuel) :
    Triple (ReadTo s₀ src flag) (needBits env n fuel) (fun _ => ReadTo s₀ src' flag)
      fun _ _ => False :=
  Triple.of_state fun s hs => Triple.conseq
    (P := fun t => ReadTo s₀ src flag t ∧ t.head.tt = s.head.tt)
      (readTo_needBits_tt hFill hFuel)
    (fun _ ht => by subst ht; exact ⟨hs, rfl⟩) (fun _ _ ht => ht.1) fun _ _ h => h

theorem readTo_fromFlag {α : Type} {k : Nat} {a : α} {x : Code α} {Q : α → State → Prop}
    {E : Exit → State → Prop} (hx : Triple (ReadTo s₀ src 0) x Q E) :
    Triple (ReadTo s₀ src 0) (fromFlag k a x) Q E :=
  Triple.get_bind' fun _ hs => Triple.ite (fun _ => hx) fun hNot => absurd (Or.inl hs.flag_eq) hNot

end Read

/-! ### Codes -/

/-- The entry of a code, through the tables behind the first one. -/
def walk : Nat → HuftPtr → Source → Option (HuftPtr × Source)
  | 0, _, _ => none
  | fuel + 1, t, src =>
    if t.get.e ≤ 16 then some (t, src)
    else if t.get.e = 99 then none
    else ((src.dump t.get.b).fill (t.get.e - 16)).bind fun src =>
      walk fuel (t.next.add (src.bits (t.get.e - 16))) src

/-- The entry of the next code, and the bits behind it. -/
def code (fuel : Nat) (t : HuftPtr) (b : Nat) (src : Source) : Option (HuftPtr × Source) :=
  (src.fill b).bind fun src => (walk fuel (t.add (src.bits b)) src).map fun p =>
    (p.1, p.2.dump p.1.get.b)

theorem walk_mono {fuel fuel' : Nat} {t : HuftPtr} {src : Source} {p : HuftPtr × Source}
    (h : walk fuel t src = some p) (hLe : fuel ≤ fuel') : walk fuel' t src = some p := by
  induction fuel generalizing fuel' t src with
  | zero => cases h
  | succ fuel ih =>
    obtain ⟨k, rfl⟩ : ∃ k, fuel' = k + 1 := ⟨fuel' - 1, by omega⟩
    unfold walk at h ⊢
    split at h
    · next hShort => exact (if_pos hShort).trans h
    · next hLong =>
      rw [if_neg hLong]
      split at h
      · cases h
      · next hValid =>
        rw [if_neg hValid]
        obtain ⟨src', hFill, hRest⟩ := Option.bind_eq_some_iff.mp h
        exact Option.bind_eq_some_iff.mpr ⟨src', hFill, ih hRest (Nat.le_of_succ_le_succ hLe)⟩

theorem code_mono {fuel fuel' b : Nat} {t : HuftPtr} {src : Source} {p : HuftPtr × Source}
    (h : code fuel t b src = some p) (hLe : fuel ≤ fuel') : code fuel' t b src = some p := by
  obtain ⟨src', hFill, hRest⟩ := Option.bind_eq_some_iff.mp h
  obtain ⟨q, hWalk, hEnd⟩ := Option.map_eq_some_iff.mp hRest
  exact Option.bind_eq_some_iff.mpr
    ⟨src', hFill, Option.map_eq_some_iff.mpr ⟨q, walk_mono hWalk hLe, hEnd⟩⟩

section Codes

variable {env : Env} {s₀ : State} {src src' : Source} {t t' : HuftPtr} {v : Codes} {fuel : Nat}

theorem fill_input {n : Nat} (h : src.fill n = some src') :
    src'.input.length ≤ src.input.length :=
  fillBits_input h

theorem walk_input (h : walk fuel t src = some (t', src')) :
    src'.input.length ≤ src.input.length := by
  induction fuel generalizing t src with
  | zero => cases h
  | succ fuel ih =>
    unfold walk at h
    split at h
    · obtain ⟨-, rfl⟩ := Prod.mk.inj (Option.some.inj h)
      exact Nat.le_refl _
    · split at h
      · cases h
      · obtain ⟨src₁, hFill, hRest⟩ := Option.bind_eq_some_iff.mp h
        have hFirst : src₁.input.length ≤ (src.dump t.get.b).input.length := fill_input hFill
        exact Nat.le_trans (ih hRest) hFirst

theorem code_input {b : Nat} (h : code fuel t b src = some (t', src')) :
    src'.input.length ≤ src.input.length := by
  obtain ⟨src₁, hFill, hRest⟩ := Option.bind_eq_some_iff.mp h
  obtain ⟨⟨t₁, src₂⟩, hWalk, hEnd⟩ := Option.map_eq_some_iff.mp hRest
  obtain ⟨rfl, rfl⟩ := Prod.mk.inj hEnd
  have hRead : src₂.input.length ≤ src₁.input.length := walk_input hWalk
  exact Nat.le_trans hRead (fill_input hFill)

/-- The variables behind the entry `t`. -/
def Codes.at_ (v : Codes) (t : HuftPtr) : Codes := { v with e := t.get.e, t := some t }

theorem readTo_descend {p : Prop} [Decidable p] (hp : p ↔ 16 < t.get.e)
    {x : Nat → Codes → Code Codes}
    (hx : 16 < t.get.e → Triple (ReadTo s₀ src 0) (x fuel (v.at_ t))
      (fun v' s => v' = v.at_ t' ∧ ReadTo s₀ src' 0 s) fun _ _ => False)
    (hWalk : walk (fuel + 1) t src = some (t', src')) :
    Triple (ReadTo s₀ src 0) (onlyIf p (v.at_ t) (x fuel (v.at_ t)))
      (fun v' s => v' = v.at_ t' ∧ ReadTo s₀ src' 0 s) fun _ _ => False := by
  refine Triple.ite (fun h => hx (hp.mp h)) fun hShort => Triple.pure fun s hs => ?_
  rw [walk, if_pos (Nat.le_of_not_lt (mt hp.mpr hShort))] at hWalk
  obtain ⟨rfl, rfl⟩ := Prod.mk.inj (Option.some.inj hWalk)
  exact ⟨rfl, hs⟩

/-- A step through the tables. -/
theorem walk_long (hLong : 16 < t.get.e) (hWalk : walk (fuel + 1) t src = some (t', src')) :
    t.get.e ≠ 99 ∧ ∃ src₁, (src.dump t.get.b).fill (t.get.e - 16) = some src₁ ∧
      walk fuel (t.next.add (src₁.bits (t.get.e - 16))) src₁ = some (t', src') := by
  rw [walk, if_neg (Nat.not_le_of_lt hLong)] at hWalk
  split at hWalk
  · cases hWalk
  · exact ⟨‹_›, Option.bind_eq_some_iff.mp hWalk⟩

theorem readTo_descendLit (hFuel : src.input.length < env.fuel) (hLong : 16 < t.get.e)
    (hWalk : walk (fuel + 1) t src = some (t', src')) :
    Triple (ReadTo s₀ src 0) (descendLit env fuel (v.at_ t))
      (fun v' s => v' = v.at_ t' ∧ ReadTo s₀ src' 0 s) fun _ _ => False := by
  induction fuel generalizing src t with
  | zero =>
    obtain ⟨-, src₁, -, hRest⟩ := walk_long hLong hWalk
    cases hRest
  | succ fuel ih =>
    obtain ⟨hValid, src₁, hFill, hRest⟩ := walk_long hLong hWalk
    have hFuel₁ : src₁.input.length < env.fuel := Nat.lt_of_le_of_lt (fill_input hFill) hFuel
    refine Triple.ite (fun hBad => absurd hBad hValid) fun _ => ?_
    refine Triple.bind (readTo_dumpBits _) fun _ => Triple.get_bind' fun s hs => ?_
    rw [if_pos hs.flag_eq]
    refine Triple.bind (readTo_setFlag 10) fun _ => ?_
    refine Triple.bind (Q := fun _ s => ReadTo s₀ (src.dump t.get.b) 10 s ∧ s.head.tt = some t)
      (Triple.modify fun s hs =>
        ⟨hs.congr hs.source ⟨rfl, rfl, rfl, rfl, rfl⟩ hs.flag_eq rfl, rfl⟩)
      fun _ => ?_
    refine Triple.bind (readTo_needBits_tt hFill hFuel) fun _ => Triple.get_bind' fun u hu => ?_
    refine Triple.ite (fun hNone => absurd (hu.2.symm.trans hNone) nofun) fun _ => ?_
    refine Triple.bind (Q := fun _ => ReadTo s₀ src₁ 0)
      (Triple.modify fun s hs => hs.1.congr hs.1.source ⟨rfl, rfl, rfl, rfl, rfl⟩ rfl rfl)
        fun _ => ?_
    exact readTo_bits (readTo_descend Iff.rfl (x := descendLit env)
      (fun hLong => ih hFuel₁ hLong hRest) hRest)

theorem readTo_descendDist (hFuel : src.input.length < env.fuel) (hLong : 16 < t.get.e)
    (hWalk : walk (fuel + 1) t src = some (t', src')) :
    Triple (ReadTo s₀ src 0) (descendDist env fuel (v.at_ t))
      (fun v' s => v' = v.at_ t' ∧ ReadTo s₀ src' 0 s) fun _ _ => False := by
  induction fuel generalizing src t with
  | zero =>
    obtain ⟨-, src₁, -, hRest⟩ := walk_long hLong hWalk
    cases hRest
  | succ fuel ih =>
    obtain ⟨hValid, src₁, hFill, hRest⟩ := walk_long hLong hWalk
    have hFuel₁ : src₁.input.length < env.fuel := Nat.lt_of_le_of_lt (fill_input hFill) hFuel
    refine Triple.ite (fun hBad => absurd hBad hValid) fun _ => Triple.get_bind' fun s hs => ?_
    refine Triple.bind_eq (a := t.get.e - 16) (S := ReadTo s₀ (src.dump t.get.b) 0)
      (Triple.ite (fun _ => Triple.bind (readTo_dumpBits _) fun _ => Triple.pure fun _ hu =>
        ⟨rfl, hu⟩)
        fun hNot => absurd hs.flag_eq hNot) ?_
    refine Triple.bind (readTo_modifyHead fun _ => ⟨rfl, rfl⟩) fun _ =>
      Triple.bind (readTo_setFlag 13) fun _ => ?_
    refine Triple.bind (readTo_needBits hFill hFuel) fun _ =>
      Triple.bind (readTo_setFlag 0) fun _ => ?_
    exact readTo_bits (readTo_descend Iff.rfl (x := descendDist env)
      (fun hLong => ih hFuel₁ hLong hRest) hRest)

variable {tl td : HuftPtr} {n bl bd : Nat}

theorem readTo_firstBits (hFill : src.fill bl = some src') (hFuel : src.input.length < env.fuel) :
    Triple (ReadTo s₀ src 0) (firstBits env bl v) (fun _ => ReadTo s₀ src' 0)
      fun _ _ => False :=
  readTo_fromFlag (Triple.bind (readTo_setFlag 9) fun _ =>
    Triple.bind (readTo_modifyHead fun _ => ⟨rfl, rfl⟩)
    fun _ => Triple.bind (readTo_needBits hFill hFuel) fun _ => readTo_setFlag 0)

theorem readTo_distBits (hFill : src.fill bd = some src') (hFuel : src.input.length < env.fuel) :
    Triple (ReadTo s₀ src 0) (distBits env bd v) (fun _ => ReadTo s₀ src' 0) fun _ _ => False :=
  readTo_fromFlag (Triple.bind (readTo_modifyHead fun _ => ⟨rfl, rfl⟩) fun _ =>
    Triple.bind (readTo_setFlag 12)
    fun _ => Triple.bind (readTo_needBits hFill hFuel) fun _ => readTo_setFlag 0)

theorem readTo_litCode (hFuel : src.input.length < env.fuel)
    (hWalk : walk env.fuel (tl.add (src.bits bl)) src = some (t', src')) :
    Triple (ReadTo s₀ src 0) (litCode env tl bl v)
      (fun v' s => v' = v.at_ t' ∧ ReadTo s₀ (src'.dump t'.get.b) 0 s) fun _ _ => False := by
  refine readTo_fromFlag (Triple.get_bind' fun s hs => readTo_bits ?_)
  have hZero : s.flag = 0 := hs.flag_eq
  rw [hZero]
  refine Triple.bind_eq (readTo_descend (x := descendLit env) (by simp [Codes.goto])
    (fun hLong => readTo_descendLit hFuel hLong (walk_mono hWalk (Nat.le_succ _)))
    (walk_mono hWalk (Nat.le_succ _))) ?_
  exact Triple.bind (readTo_dumpBits _) fun _ => Triple.pure fun _ hs => ⟨rfl, hs⟩

theorem readTo_distCode (hFuel : src.input.length < env.fuel)
    (hWalk : walk env.fuel (td.add (src.bits bd)) src = some (t', src')) :
    Triple (ReadTo s₀ src 0) (distCode env td bd v)
      (fun v' s => v' = v.at_ t' ∧ ReadTo s₀ (src'.dump t'.get.b) 0 s) fun _ _ => False := by
  refine readTo_fromFlag (Triple.get_bind' fun s hs => readTo_bits ?_)
  have hZero : s.flag = 0 := hs.flag_eq
  rw [hZero]
  refine Triple.bind_eq (readTo_descend (x := descendDist env) (by simp [Codes.goto])
    (fun hLong => readTo_descendDist hFuel hLong (walk_mono hWalk (Nat.le_succ _)))
    (walk_mono hWalk (Nat.le_succ _))) ?_
  exact Triple.bind (readTo_dumpBits _) fun _ =>
    Triple.bind (readTo_modifyHead fun _ => ⟨rfl, rfl⟩) fun _ =>
    Triple.pure fun _ hs => ⟨rfl, hs⟩

end Codes

/-! ### Tokens -/

/-- A literal, or a copy with its length less 3, its distance, and the number of extra bits of its
distance code. -/
inductive Token where
  | literal (c : UInt8)
  | copy (x : UInt8) (d e : Nat)
  deriving DecidableEq

/-- The entries of the two buffers for the token. -/
def Token.pair : Token → UInt8 × Nat
  | .literal c => (c, 0)
  | .copy x d _ => (x, d)

/-- The tables decode the bits to the tokens and the end of the block, behind which are those of the
second source.  A code goes through fewer tables than `fuel`. -/
inductive Decodes (tl td : HuftPtr) (bl bd fuel : Nat) : Source → List Token → Source → Prop
  | stop {src src₁ : Source} {t : HuftPtr} :
      code fuel tl bl src = some (t, src₁) → t.get.e = 15 →
        Decodes tl td bl bd fuel src [] src₁
  | literal {src src₁ out : Source} {t : HuftPtr} {tokens : List Token} :
      code fuel tl bl src = some (t, src₁) → t.get.e = 16 →
      Decodes tl td bl bd fuel src₁ tokens out →
      Decodes tl td bl bd fuel src (.literal t.get.n.toUInt8 :: tokens) out
  | copy {src src₁ src₂ src₃ src₄ out : Source} {t t' : HuftPtr} {tokens : List Token} :
      code fuel tl bl src = some (t, src₁) → t.get.e ≠ 15 → t.get.e ≠ 16 →
      src₁.fill t.get.e = some src₂ →
      code fuel td bd (src₂.dump t.get.e) = some (t', src₃) →
        src₃.fill t'.get.e = some src₄ →
      Decodes tl td bl bd fuel (src₄.dump t'.get.e) tokens out →
      Decodes tl td bl bd fuel src
        (.copy (t.get.n + src₂.bits t.get.e + 2 ^ 16 - 3).toUInt8
          ((t'.get.n + src₄.bits t'.get.e) % 2 ^ 16) t'.get.e :: tokens) out

theorem Decodes.mono {tl td : HuftPtr} {bl bd fuel fuel' : Nat} {src out : Source}
    {tokens : List Token} (h : Decodes tl td bl bd fuel src tokens out) (hLe : fuel ≤ fuel') :
    Decodes tl td bl bd fuel' src tokens out := by
  induction h with
  | stop hCode hEnd => exact .stop (code_mono hCode hLe) hEnd
  | literal hCode hLit _ ih => exact .literal (code_mono hCode hLe) hLit ih
  | copy hCode hNotEnd hNotLit hFill hDist hFill' _ ih =>
    exact .copy (code_mono hCode hLe) hNotEnd hNotLit hFill (code_mono hDist hLe) hFill' ih

end Shutter.Gunzip
