import Shutter.Gunzip.Trace

/-! The inflater keeps its two buffers of tokens in step.  `keyword_match` is called between the
length of a copy and its distance when the length is the last entry of `litter_buf`, or when the
input ends there.  In every run of the inflater without such a copy the buffers are in step. -/

namespace Shutter.Gunzip

open Shutter.Library
open Shutter.Stream (Segment)

/-! ### The parts of `inflate_codes` -/

/-- The input has ended at a flag, behind a state of `T`. -/
structure StarvedAt (T : State → Prop) (flag : Nat) (t : State) : Prop where
  flag_eq : t.flag = flag
  saved : t.head.flag = flag
  before : ∃ s, T s ∧ SameTokens s { t with trace := s.trace } ∧
    t.trace = s.trace ++ [.starved flag]

/-- How a part of `inflate_codes` is left that reads bits at a flag, in states of `T`. -/
def Leaves (T : State → Prop) (flag : Nat) (e : Exit) (t : State) : Prop :=
  (e = .ret 0 → StarvedAt T flag t) ∧ (e ≠ .ret 0 → Settled t)

/-- `Even` or `Half`: a condition on the tokens for which the inflater may stop. -/
structure Steady (T : State → Prop) : Prop where
  congr : ∀ s t, T s → SameTokens s t → T t
  settled : ∀ s, T s → Settled s

theorem steady_even : Steady Even := ⟨fun _ _ hs h => hs.congr h, fun _ => Or.inl⟩

theorem steady_half : Steady Half :=
    ⟨fun _ _ hs h => hs.congr h, fun _ hs => Or.inr (Or.inl hs)⟩

theorem triple_bits_bind {α : Type} {n : Nat} {P : State → Prop} {f : Nat → Code α}
    {Q : α → State → Prop} {E : Exit → State → Prop} (hf : ∀ b, Triple P (f b) Q E) :
    Triple P (bits n >>= f) Q E :=
  Triple.bind (Q := fun _ => P) (Triple.get_bind' fun _ _ => Triple.pure fun _ hs => hs) hf

namespace Steady

variable {env : Env} {T : State → Prop} (h : Steady T) {flag : Nat}
include h

theorem leave {r : Nat} (hr : r ≠ 0) (s : State) (hs : T s) : Leaves T flag (.ret r) s :=
  ⟨fun hRet => absurd (Exit.ret.inj hRet) hr, fun _ => h.settled s hs⟩

theorem spin (s : State) (hs : T s) : Leaves T flag .spin s := ⟨nofun, fun _ => h.settled s hs⟩

theorem modifyHead {f : Head → Head} {k : Nat} :
    Triple (fun s => T s ∧ s.flag = k) (modifyHead f) (fun _ s => T s ∧ s.flag = k)
      (Leaves T flag) :=
  Triple.modify fun s hs => ⟨h.congr s _ hs.1 ⟨rfl, rfl, rfl, rfl, rfl⟩, hs.2⟩

theorem setFlag : Triple T (setFlag flag) (fun _ s => T s ∧ s.flag = flag) (Leaves T flag) :=
  Triple.modify fun s hs => ⟨h.congr s _ hs ⟨rfl, rfl, rfl, rfl, rfl⟩, rfl⟩

theorem dumpBits (n : Nat) : Triple T (dumpBits n) (fun _ => T) (Leaves T flag) :=
  Triple.modify fun s hs => h.congr s _ hs ⟨rfl, rfl, rfl, rfl, rfl⟩

theorem needBits (hWait : env.Refills) (n fuel : Nat) :
    Triple (fun s => T s ∧ s.flag = flag) (needBits env n fuel) (fun _ s => T s ∧ s.flag = flag)
      (Leaves T flag) := by
  refine Triple.of_state fun s hs => (needBits_spec hWait n fuel s).conseq (fun _ ht => ht)
    (fun _ t ht => ?_) fun e t ht => ?_
  · exact ⟨h.congr s t hs.1 ht.1.sameTokens, ht.1.flag.trans hs.2⟩
  · rcases ht with ⟨rfl, hStarved⟩ | ⟨rfl, hFed⟩
    · refine ⟨fun _ =>
        ⟨hStarved.fed.flag.trans hs.2, hStarved.saved.trans hs.2, s, hs.1, ?_, ?_⟩,
        fun hNe => absurd rfl hNe⟩
      · exact hStarved.fed.sameTokens
      · rw [hStarved.trace, hs.2]
    · exact h.spin t (h.congr s t hs.1 hFed.sameTokens)

theorem readBits (hWait : env.Refills) {α : Type} {n fuel : Nat} {f : Unit → Code α}
    {Q : α → State → Prop}
    (hf : Triple (fun s => T s ∧ s.flag = 0) (f ()) Q (Leaves T flag)) :
    Triple (fun s => T s ∧ s.flag = flag)
      (do Gunzip.needBits env n fuel; Gunzip.setFlag 0; f ()) Q
      (Leaves T flag) :=
  Triple.bind (h.needBits hWait n fuel) fun _ => Triple.bind (Triple.modify fun s hs =>
    ⟨h.congr s _ hs.1 ⟨rfl, rfl, rfl, rfl, rfl⟩, rfl⟩) fun _ => hf

theorem descendLit (hWait : env.Refills) (fuel : Nat) (v : Codes) :
    Triple T (descendLit env fuel v) (fun _ s => T s ∧ s.flag = 0) (Leaves T 10) := by
  induction fuel generalizing v with
  | zero => exact Triple.throw h.spin
  | succ fuel ih =>
    refine Triple.ite (fun _ => Triple.throw (h.leave (by decide))) fun _ => ?_
    refine Triple.bind (h.dumpBits _) fun _ => Triple.get_bind' fun s _ => ?_
    refine Triple.bind h.setFlag fun _ => Triple.bind h.modifyHead fun _ =>
      Triple.bind (h.needBits hWait _ _) fun _ => Triple.get_bind' fun s _ => ?_
    refine Triple.ite (fun _ => Triple.throw fun s hs => h.leave (by decide) s hs.1) fun _ => ?_
    refine Triple.bind (Q := fun _ s => T s ∧ s.flag = 0) (Triple.modify fun s hs =>
      ⟨h.congr s _ hs.1 ⟨rfl, rfl, rfl, rfl, rfl⟩, rfl⟩) fun _ =>
        triple_bits_bind fun _ => ?_
    exact Triple.ite (fun _ => (ih _).conseq (fun _ hs => hs.1) (fun _ _ hs => hs) fun _ _ hs => hs)
      fun _ => Triple.pure fun _ hs => hs

theorem descendDist (hWait : env.Refills) (fuel : Nat) (v : Codes) :
    Triple T (descendDist env fuel v) (fun _ s => T s ∧ s.flag = 0) (Leaves T 13) := by
  induction fuel generalizing v with
  | zero => exact Triple.throw h.spin
  | succ fuel ih =>
    refine Triple.ite (fun _ => Triple.throw (h.leave (by decide))) fun _ => ?_
    refine Triple.get_bind' fun s _ => Triple.bind (Q := fun _ => T) (Triple.ite
      (fun _ => Triple.bind (h.dumpBits _) fun _ => Triple.pure fun _ hs => hs)
      fun _ => Triple.pure fun _ hs => hs) fun e => ?_
    refine Triple.bind (Q := fun _ => T) (Triple.modify fun s hs =>
      h.congr s _ hs ⟨rfl, rfl, rfl, rfl, rfl⟩) fun _ => Triple.bind h.setFlag fun _ => ?_
    refine h.readBits hWait (f := fun _ => _) (triple_bits_bind fun _ => ?_)
    exact Triple.ite (fun _ => (ih _).conseq (fun _ hs => hs.1) (fun _ _ hs => hs) fun _ _ hs => hs)
      fun _ => Triple.pure fun _ hs => hs

end Steady

/-- A flag at which no distance is read. -/
def Outside (flag : Nat) : Prop := flag < 12 ∨ 14 < flag

/-- Between two tokens. -/
def Whole (s : State) : Prop := Even s ∧ Outside s.flag

/-- Behind the length of a copy, or at a flag of another function. -/
def Between (s : State) : Prop := s.flag = 0 ∧ Half s ∨ s.flag ≠ 0 ∧
    Outside s.flag ∧ Even s

/-- A copy that should not be there has its length and not its distance. -/
structure Cut (s : State) : Prop where
  bad : ∃ e ∈ s.trace, ¬e.Ok
  steps : StepsInStep s.trace
  counters : s.lit ≠ s.dist

/-- The inflater runs out of input here. -/
def Stopped (s : State) : Prop := (Whole s ∧ Outside s.head.flag) ∨ Cut s ∨ Broken s

/-- How `inflate_codes` is left before its end. -/
def Stops (e : Exit) (s : State) : Prop := (e = .ret 0 → Stopped s) ∧
    (e ≠ .ret 0 → Settled s)

theorem Whole.congr {s t : State} (h : Whole s) (hTokens : SameTokens s t)
    (hFlag : t.flag = s.flag) :
    Whole t := ⟨h.1.congr hTokens, hFlag ▸ h.2⟩

theorem Whole.stops {r : Nat} (hr : r ≠ 0) (s : State) (hs : Whole s) : Stops (.ret r) s :=
  ⟨fun hRet => absurd (Exit.ret.inj hRet) hr, fun _ => Or.inl hs.1⟩

theorem Broken.stops {e : Exit} (s : State) (hs : Broken s) : Stops e s :=
  ⟨fun _ => Or.inr (Or.inr hs), fun _ => Or.inr (Or.inr hs)⟩

theorem StarvedAt.whole (flag : Nat) (hFlag : Outside flag) {s : State}
    (h : StarvedAt Even flag s) : Whole s ∧ Outside s.head.flag := by
  obtain ⟨hEq, hSaved, t, ht, hSame, hTrace⟩ := h
  have hs : Even { t with trace := t.trace ++ [.starved flag] } :=
    { toClean := ht.toClean.record hFlag trivial, counters := ht.counters,
      length := by simpa [Decoded.next] using ht.length,
      entries := by rw [decoded_append]; exact ht.entries }
  refine ⟨⟨hs.congr ⟨hSame.lit, hSame.dist, hSame.litterBuf, hSame.distBuf, hTrace⟩,
    ?_⟩, ?_⟩
  · exact hEq ▸ hFlag
  · exact hSaved ▸ hFlag

theorem Leaves.stops_even {flag : Nat} (hFlag : flag < 12) {e : Exit} {s : State}
    (h : Leaves Even flag e s) : Stops e s :=
  ⟨fun he => Or.inl (StarvedAt.whole _ (Or.inl hFlag) (h.1 he)), h.2⟩

theorem Leaves.stops_half {flag : Nat} (hFlag : ¬Outside flag) {e : Exit} {s : State}
    (h : Leaves Half flag e s) : Stops e s := by
  refine ⟨fun he => ?_, h.2⟩
  obtain ⟨-, -, t, ht, hSame, hTrace⟩ := h.1 he
  refine Or.inr (Or.inl ⟨⟨.starved flag, by simp [hTrace], hFlag⟩, ?_, ?_⟩)
  · rw [hTrace]
    exact stepsInStep_append.mpr ⟨ht.steps, trivial⟩
  · have hLit : s.lit = t.lit := hSame.lit
    have hDist : s.dist = t.dist := hSame.dist
    rw [hLit, hDist, ht.counters]
    omega

/-- A part of `inflate_codes` that reads a literal or length code. -/
theorem whole_fromFlag {α : Type} {flag : Nat} (hFlag : flag < 12) {a : α} {x : Code α}
    (hx : Triple (fun s => Even s ∧ (s.flag = 0 ∨ s.flag = flag)) x
      (fun _ s => Even s ∧ s.flag = 0) (Leaves Even flag)) :
    Triple Whole (fromFlag flag a x) (fun _ => Whole) Stops := by
  refine Triple.get_bind fun s hs => Triple.ite (fun hOwn => ?_) fun _ =>
    Triple.pure fun t ht => ht ▸ hs
  refine hx.conseq (fun t ht => ?_) (fun _ t ht => ⟨ht.1, ?_⟩) fun e t ht => ht.stops_even hFlag
  · subst ht
    exact ⟨hs.1, hOwn⟩
  · exact Or.inl (by omega)

/-- A part of `inflate_codes` that reads a distance code. -/
theorem between_fromFlag {α : Type} {flag : Nat} (hFlag : ¬Outside flag) {a : α} {x : Code α}
    (hx : Triple (fun s => Half s ∧ (s.flag = 0 ∨ s.flag = flag)) x
      (fun _ s => Half s ∧ s.flag = 0) (Leaves Half flag)) :
    Triple Between (fromFlag flag a x) (fun _ => Between) Stops := by
  refine Triple.get_bind fun s hs => Triple.ite (fun hOwn => ?_) fun _ =>
    Triple.pure fun t ht => ht ▸ hs
  refine hx.conseq (fun t ht => ?_) (fun _ t ht => Or.inl ⟨ht.2, ht.1⟩)
    fun e t ht => ht.stops_half hFlag
  subst ht
  refine ⟨?_, hOwn⟩
  rcases hs with hs | hs
  · exact hs.2
  · rcases hOwn with hZero | hEq
    · exact absurd hZero hs.1
    · exact absurd (hEq ▸ hs.2.1) hFlag

theorem keywordMatch_whole (env : Env) :
    Triple Whole (keywordMatch env) (fun _ => Whole) Stops := by
  refine Triple.get_bind fun s hs => Triple.bind (Q := fun _ => Whole)
    (Triple.modify fun t ht => ?_)
    fun _ => Triple.pure fun _ hs => hs
  subst ht
  exact ⟨hs.1.called, hs.2⟩

/-- `keyword_match` is called with a length that has no distance. -/
theorem keywordMatch_cut (env : Env) :
    Triple Cut (keywordMatch env) (fun _ => Broken) fun _ _ => False := by
  refine Triple.get_bind fun s hs => Triple.bind (Q := fun _ => Broken)
    (Triple.modify fun t ht => ?_)
    fun _ => Triple.pure fun _ hs => hs
  subst ht
  obtain ⟨e, he, hBad⟩ := hs.bad
  refine ⟨⟨e, List.mem_append_left _ he, hBad⟩, fun hSteps => ?_⟩
  exact hs.counters (stepsInStep_append.mp hSteps).2.1

theorem flush_whole (env : Env) (v : Codes) :
    Triple Whole (flush env v) (fun _ => Whole) Stops := by
  refine Triple.bind (keywordMatch_whole env) fun found => Triple.ite (fun _ => ?_) fun _ => ?_
  · refine Triple.bind (Q := fun _ => Whole) (Triple.modify fun s hs => ?_)
      fun _ => Triple.throw (Whole.stops (by decide))
    exact hs.congr ⟨rfl, rfl, rfl, rfl, rfl⟩ rfl
  · refine Triple.bind (Q := fun _ => Whole) (Triple.modify fun s hs => ⟨?_, hs.2⟩) fun _ =>
      Triple.ite (fun _ => ?_) fun _ => Triple.pure fun _ hs => hs
    · exact { hs.1 with counters := rfl, entries := List.nil_suffix }
    · refine Triple.bind (Q := fun _ => Whole) (Triple.modify fun s hs => ?_)
        fun _ => Triple.throw (Whole.stops (by decide))
      exact hs.congr ⟨rfl, rfl, rfl, rfl, rfl⟩ rfl

theorem flush_cut {env : Env} (hWait : env.Refills) (v : Codes) :
    Triple Cut (flush env v) (fun _ => Broken) Stops := by
  refine Triple.bind ((keywordMatch_cut env).conseq (fun _ hs => hs) (fun _ _ hs => hs)
    fun _ _ hFalse => hFalse.elim) fun found => ?_
  have hRest : Keeps Broken (if found = true then do
        modify fun s => { s with gkState := env.gkStateBlock, head := { s.head with tt := none } }
        ret 1
      else do
        modify fun s => { s with lit := 0, dist := 0, length := 0 }
        if 1 < v.loop then
          modifyHead fun h => { h with tt := none }
          ret 1
        else return { v with loop := v.loop + 1 } : Code Codes) := by
    have hFramed := hWait.framed
    refine Keeps.ite (Keeps.bind (hFramed.modify fun _ => .untraced rfl rfl rfl rfl rfl) fun _ =>
      keeps_ret 1) (Keeps.bind (hFramed.modify fun _ => .untraced rfl rfl rfl rfl rfl) fun _ => ?_)
    exact Keeps.ite (Keeps.bind (hFramed.modifyHead _) fun _ => keeps_ret 1) (Keeps.pure _)
  exact hRest.conseq (fun _ hs => hs) (fun _ _ hs => hs) fun _ _ hs => hs.stops

section Parts

variable {env : Env} (hWait : env.Refills)
include hWait

theorem firstBits_whole (bl : Nat) (v : Codes) :
    Triple Whole (firstBits env bl v) (fun _ => Whole) Stops := by
  refine whole_fromFlag (by decide) ?_
  refine Triple.bind (steady_even.setFlag.conseq (fun _ hs => hs.1)
    (fun _ _ hs => hs) fun _ _ hs => hs)
    fun _ => Triple.bind steady_even.modifyHead fun _ => ?_
  exact steady_even.readBits hWait (f := fun _ => pure ()) (Triple.pure fun _ hs => hs)

theorem distBits_between (bd : Nat) (v : Codes) :
    Triple Between (distBits env bd v) (fun _ => Between) Stops := by
  refine between_fromFlag (by simp [Outside]) ?_
  refine Triple.bind (Q := fun _ => Half) (Triple.modify fun s hs =>
    hs.1.congr ⟨rfl, rfl, rfl, rfl, rfl⟩) fun _ => Triple.bind steady_half.setFlag fun _ => ?_
  exact steady_half.readBits hWait (f := fun _ => pure ()) (Triple.pure fun _ hs => hs)

theorem litCode_whole (tl : HuftPtr) (bl : Nat) (v : Codes) :
    Triple Whole (litCode env tl bl v) (fun _ => Whole) Stops := by
  refine whole_fromFlag (by decide) (Triple.get_bind fun s hs => triple_bits_bind fun b => ?_)
  refine Triple.bind (Q := fun _ s => Even s ∧ s.flag = 0)
    (Triple.ite (fun _ => ?_) fun hSkip => ?_)
    fun v => Triple.bind (Q := fun _ s => Even s ∧ s.flag = 0) ?_ fun _ =>
      Triple.pure fun _ hs => hs
  · exact (steady_even.descendLit hWait _ _).conseq (fun t ht => ht ▸ hs.1) (fun _ _ ht => ht)
      fun _ _ ht => ht
  · exact Triple.pure fun t ht =>
      ht ▸ ⟨hs.1, hs.2.resolve_right fun hEq => hSkip (Or.inl hEq)⟩
  · exact Triple.modify fun s hs => ⟨hs.1.congr ⟨rfl, rfl, rfl, rfl, rfl⟩, hs.2⟩

theorem distCode_between (td : HuftPtr) (bd : Nat) (v : Codes) :
    Triple Between (distCode env td bd v) (fun _ => Between) Stops := by
  refine between_fromFlag (by simp [Outside])
    (Triple.get_bind fun s hs => triple_bits_bind fun b => ?_)
  refine Triple.bind (Q := fun _ s => Half s ∧ s.flag = 0)
    (Triple.ite (fun _ => ?_) fun hSkip => ?_)
    fun v => Triple.bind (Q := fun _ s => Half s ∧ s.flag = 0) ?_ fun _ =>
      Triple.bind steady_half.modifyHead fun _ => Triple.pure fun _ hs => hs
  · exact (steady_half.descendDist hWait _ _).conseq (fun t ht => ht ▸ hs.1) (fun _ _ ht => ht)
      fun _ _ ht => ht
  · exact Triple.pure fun t ht =>
      ht ▸ ⟨hs.1, hs.2.resolve_right fun hEq => hSkip (Or.inl hEq)⟩
  · exact Triple.modify fun s hs => ⟨hs.1.congr ⟨rfl, rfl, rfl, rfl, rfl⟩, hs.2⟩

omit hWait in
theorem literal_whole (v : Codes) : Triple Whole (literal env v) (fun _ => Whole) Stops := by
  refine Triple.bind (Q := fun _ => Whole) (Triple.modify fun s hs =>
    hs.congr ⟨rfl, rfl, rfl, rfl, rfl⟩ rfl) fun _ => Triple.ite
    (fun _ => Triple.throw (Whole.stops (by decide))) fun _ => Triple.of_state fun s hs => ?_
  refine Triple.bind (Triple.modify_eq s) fun _ => Triple.bind (Triple.modify_eq _) fun _ =>
    Triple.bind (Triple.modify_eq _) fun _ => Triple.conseq (P := Whole) ?_ (fun t ht => ?_)
      (fun _ _ ht => ht) fun _ _ ht => ht
  · exact Triple.get_bind' fun t _ =>
      Triple.ite (fun _ => flush_whole env v) fun _ => Triple.pure fun _ hs => hs
  · subst ht
    exact ⟨hs.1.literal _, hs.2⟩

omit hWait in
theorem endOfBlock_whole :
    Triple Whole endOfBlock (fun _ s => Whole s ∧ s.head.flag = 0) Stops := by
  refine Triple.get_bind' fun s _ => Triple.bind (Q := fun _ => Whole) (Triple.ite (fun _ =>
    Triple.modify fun t ht => ht.congr ⟨rfl, rfl, rfl, rfl, rfl⟩ rfl) fun _ =>
    Triple.pure fun _ hs => hs) fun _ => ?_
  refine Triple.bind (Q := fun _ s => Whole s ∧ s.head.flag = 0) (Triple.modify fun t ht =>
    ⟨ht.congr ⟨rfl, rfl, rfl, rfl, rfl⟩ rfl, rfl⟩) fun _ => Triple.get_bind' fun s _ => ?_
  exact Triple.ite (fun _ => Triple.modify fun t ht =>
    ⟨ht.1.congr ⟨rfl, rfl, rfl, rfl, rfl⟩ rfl, ht.2⟩) fun _ => Triple.pure fun _ hs => hs

/-- The length of a copy that fills `litter_buf` is matched at once. -/
theorem storeLength_even (v : Codes) (x : UInt8) :
    Triple (fun s => Even s ∧ s.flag = 0) (do
      recordToken (.length x)
      putLit x
      let v ← onlyIf ((← get).lit = litBufsize) v (flush env v)
      dumpBits v.e
      return v) (fun _ s => Between s ∨ Broken s) Stops := by
  refine Triple.of_state fun s hs => Triple.bind (Triple.modify_eq s) fun _ =>
    Triple.bind (Triple.modify_eq _) fun _ => Triple.get_bind fun t ht => ?_
  subst ht
  refine Triple.bind (Q := fun _ s => Between s ∨ Broken s) ?_ fun v =>
    Triple.bind (Q := fun _ s => Between s ∨ Broken s) (Triple.modify fun t ht => ?_) fun _ =>
      Triple.pure fun _ ht => ht
  · refine Triple.ite (fun hFull => ?_) fun hRoom => Triple.pure fun t ht => ?_
    · refine (flush_cut hWait v).conseq (fun t ht => ?_) (fun _ _ ht => Or.inr ht) fun _ _ ht => ht
      subst ht
      refine ⟨⟨.length x s.lit s.dist, by simp, fun hOk => hOk hFull⟩, ?_, ?_⟩
      · exact stepsInStep_append.mpr ⟨hs.1.steps, hs.1.counters⟩
      · show s.lit + 1 ≠ s.dist
        rw [hs.1.counters]
        omega
    · subst ht
      exact Or.inl (Or.inl ⟨hs.2, hs.1.copyLength x hRoom⟩)
  · rcases ht with ht | ht
    · refine Or.inl (ht.imp (fun h => ⟨h.1, ?_⟩) fun h => ⟨h.1, h.2.1, ?_⟩)
      · exact h.2.congr ⟨rfl, rfl, rfl, rfl, rfl⟩
      · exact h.2.2.congr ⟨rfl, rfl, rfl, rfl, rfl⟩
    · exact Or.inr ⟨ht.bad, ht.steps⟩

theorem copyLength_whole (v : Codes) :
    Triple Whole (copyLength env v) (fun _ s => Between s ∨ Broken s) Stops := by
  have hLeave : ∀ e t, Leaves Even 11 e t → Stops e t := fun _ _ ht => ht.stops_even (by decide)
  refine Triple.get_bind fun s hs => Triple.ite (fun hOwn => ?_) fun hSkip => ?_
  · refine Triple.bind (Q := fun _ => Even) (Triple.modify fun t ht => ?_) fun _ => ?_
    · exact ht ▸ hs.1.congr ⟨rfl, rfl, rfl, rfl, rfl⟩
    · refine Triple.bind (steady_even.setFlag.conseq (fun _ ht => ht) (fun _ _ ht => ht) hLeave)
        fun _ => Triple.bind ((steady_even.needBits hWait _ _).conseq (fun _ ht => ht)
          (fun _ _ ht => ht) hLeave) fun _ => ?_
      refine Triple.bind (Q := fun _ s => Even s ∧ s.flag = 0) (Triple.modify fun t ht =>
        ⟨ht.1.congr ⟨rfl, rfl, rfl, rfl, rfl⟩, rfl⟩) fun _ => Triple.get_bind' fun t _ => ?_
      refine Triple.ite (fun _ => Triple.throw fun t ht => ?_) fun _ => triple_bits_bind fun b =>
        storeLength_even hWait v _
      exact Whole.stops (by decide) t ⟨ht.1, ht.2 ▸ Or.inl (by decide)⟩
  · exact Triple.pure fun t ht =>
      ht ▸ Or.inl (Or.inr ⟨fun h => hSkip (Or.inl h), hs.2, hs.1⟩)

theorem copyDist_between (v : Codes) :
    Triple Between (copyDist env v) (fun _ => Whole) Stops := by
  have hLeave : ∀ e t, Leaves Half 14 e t → Stops e t :=
    fun _ _ ht => ht.stops_half (by simp [Outside])
  refine Triple.get_bind fun s hs => Triple.ite (fun hOwn => ?_) fun hSkip => ?_
  · have hHalf : Half s := by
      rcases hs with hs | hs
      · exact hs.2
      · rcases hOwn with hZero | hEq
        · exact absurd hZero hs.1
        · exact absurd (hEq ▸ hs.2.1) (by simp [Outside])
    refine Triple.bind
      ((steady_half.setFlag.conseq (fun _ ht => ht ▸ hHalf) (fun _ _ ht => ht) hLeave))
      fun _ =>
        Triple.bind (steady_half.modifyHead.conseq (fun _ ht => ht) (fun _ _ ht => ht) hLeave)
      fun _ => Triple.bind ((steady_half.needBits hWait _ _).conseq (fun _ ht => ht)
        (fun _ _ ht => ht) hLeave) fun _ => ?_
    refine Triple.bind (Q := fun _ s => Half s ∧ s.flag = 0) (Triple.modify fun t ht =>
      ⟨ht.1.congr ⟨rfl, rfl, rfl, rfl, rfl⟩, rfl⟩) fun _ => Triple.get_bind' fun t _ => ?_
    refine Triple.ite (fun _ => Triple.throw fun t ht => ?_) fun _ => triple_bits_bind fun b =>
      Triple.of_state fun t ht => ?_
    · exact ⟨nofun, fun _ => Or.inr (Or.inl ht.1)⟩
    · refine Triple.bind (Triple.modify_eq t) fun _ => Triple.bind (Triple.modify_eq _) fun _ =>
        Triple.conseq (P := Whole) ?_ (fun u hu => ?_) (fun _ _ hu => hu) fun _ _ hu => hu
      · refine Triple.get_bind' fun u _ => Triple.bind (Q := fun _ => Whole) (Triple.ite
          (fun _ => flush_whole env v) fun _ => Triple.pure fun _ hu => hu) fun _ => ?_
        exact Triple.bind (Q := fun _ => Whole) (Triple.modify fun u hu =>
          hu.congr ⟨rfl, rfl, rfl, rfl, rfl⟩ rfl) fun _ => Triple.pure fun _ hu => hu
      · subst hu
        exact ⟨ht.1.copyDist _, Or.inl (by rw [ht.2]; decide)⟩
  · refine Triple.pure fun t ht => ht ▸ ?_
    rcases hs with hs | hs
    · exact absurd (Or.inl hs.1) hSkip
    · exact ⟨hs.2.2, hs.2.1⟩

omit hWait in
theorem countRounds_whole (v : Codes) :
    Triple Whole (countRounds v) (fun next s => Whole s ∧ next ≠ none) Stops := by
  refine Triple.ite (fun _ => Triple.ite (fun _ => ?_) fun _ => Triple.pure fun _ hs =>
    ⟨hs, nofun⟩)
    fun _ => Triple.pure fun _ hs => ⟨hs, nofun⟩
  exact Triple.bind (Q := fun _ => Whole) (Triple.modify fun s hs =>
    hs.congr ⟨rfl, rfl, rfl, rfl, rfl⟩ rfl) fun _ => Triple.throw (Whole.stops (by decide))

omit hWait in
/-- Once the buffers have not been in step, this is not undone. -/
theorem orBroken {α : Type} {P : State → Prop} {Q : α → State → Prop} {x : Code α}
    (h : Triple P x Q Stops) (hx : Keeps Broken x) :
    Triple (fun s => P s ∨ Broken s) x (fun a s => Q a s ∨ Broken s) Stops :=
  (h.or hx).conseq (fun _ hs => hs) (fun _ _ hs => hs)
    fun _ s hs => hs.elim (fun h => h) (Broken.stops s)

theorem codesRound_whole (tl td : HuftPtr) (bl bd : Nat) (v : Codes) :
    Triple (fun s => Whole s ∨ Broken s) (codesRound env tl td bl bd v)
      (fun next s => (Whole s ∧ (next = none → s.head.flag = 0)) ∨ Broken s) Stops := by
  have hFramed := hWait.framed
  have hCount : ∀ v, Triple (fun s => Whole s ∨ Broken s) (countRounds v)
      (fun next s => (Whole s ∧ (next = none → s.head.flag = 0)) ∨ Broken s) Stops :=
    fun v => (orBroken (countRounds_whole v) (hFramed.countRounds v)).conseq (fun _ hs => hs)
      (fun _ _ hs => hs.imp_left fun h => ⟨h.1, fun hNone => absurd hNone h.2⟩) fun _ _ hs => hs
  refine Triple.bind (orBroken (firstBits_whole hWait bl v) (hFramed.firstBits bl v)) fun _ =>
    Triple.bind (orBroken (litCode_whole hWait tl bl v) (hFramed.litCode tl bl v)) fun v => ?_
  refine Triple.ite (fun _ => ?_) fun _ => Triple.ite (fun _ => ?_) fun _ => ?_
  · exact Triple.bind (orBroken (literal_whole v) (hFramed.literal v)) hCount
  · refine Triple.bind (orBroken endOfBlock_whole hFramed.endOfBlock) fun _ =>
      Triple.pure fun s hs => ?_
    exact hs.imp_left fun h => ⟨h.1, fun _ => h.2⟩
  · have hLength := orBroken (copyLength_whole hWait v) (hFramed.copyLength v)
    refine Triple.bind (hLength.conseq (fun _ hs => hs) (fun _ _ hs => hs.elim (fun h => h) Or.inr)
      fun _ _ hs => hs) fun v => ?_
    refine Triple.bind (orBroken (distBits_between hWait bd v) (hFramed.distBits bd v)) fun _ =>
      Triple.bind (orBroken (distCode_between hWait td bd v) (hFramed.distCode td bd v)) fun v => ?_
    exact Triple.bind (orBroken (copyDist_between hWait v) (hFramed.copyDist v)) hCount

theorem codesLoop_whole (tl td : HuftPtr) (bl bd fuel : Nat) (v : Codes) :
    Triple (fun s => Whole s ∨ Broken s) (codesLoop env tl td bl bd fuel v)
      (fun _ s => (Whole s ∧ s.head.flag = 0) ∨ Broken s) Stops := by
  induction fuel generalizing v with
  | zero =>
    refine Triple.throw fun s hs => ⟨nofun, fun _ => ?_⟩
    exact hs.elim (fun h => Or.inl h.1) fun h => Or.inr (Or.inr h)
  | succ fuel ih =>
    refine Triple.bind (codesRound_whole hWait tl td bl bd v) fun next => ?_
    cases next with
    | none => exact Triple.pure fun s hs => hs.imp_left fun h => ⟨h.1, h.2 rfl⟩
    | some v =>
      refine (ih v).conseq (fun s hs => ?_) (fun _ _ hs => hs) fun _ _ hs => hs
      exact Or.imp_left (fun h => h.1) hs

theorem inflateCodes_whole (tl td : HuftPtr) (bl bd : Nat) :
    Triple (fun s => Whole s ∨ Broken s) (inflateCodes env tl td bl bd)
      (fun r s => (r = 0 → Stopped s) ∧ (r ≠ 0 → Settled s)) fun e s =>
      e = .spin ∧ Settled s := by
  refine triple_call ?_
  refine Triple.get_bind' fun s _ => Triple.bind ((codesLoop_whole hWait _ _ _ _ _ _).conseq
    (fun _ hs => hs) (fun _ _ hs => hs) ?_) fun _ =>
    Triple.bind (Q := fun _ => Stopped) (Triple.modify fun t ht => ?_) fun _ =>
      Triple.pure fun t ht => ⟨fun _ => ht, fun h => absurd rfl h⟩
  · intro e t ht
    refine ⟨?_, fun he => ht.2 (he ▸ nofun)⟩
    rintro r rfl
    exact ⟨fun hr => ht.1 (by rw [hr]), fun hr => ht.2 fun h => hr (Exit.ret.inj h)⟩
  · rcases ht with ht | ht
    · exact Or.inl ⟨ht.1.congr ⟨rfl, rfl, rfl, rfl, rfl⟩ rfl, Or.inl (by simp [ht.2])⟩
    · exact Or.inr (Or.inr ⟨ht.bad, ht.steps⟩)

omit hWait in
theorem Settled.congr {s t : State} (h : Settled s) (hSame : SameTokens s t) : Settled t := by
  rcases h with h | h | h
  · exact Or.inl (h.congr hSame)
  · exact Or.inr (Or.inl (h.congr hSame))
  · exact Or.inr (Or.inr (h.congr (hSame.trace ▸ List.prefix_rfl)))

omit hWait in
/-- A call of `inflate` may end here with 0. -/
def Resting (s : State) : Prop := (Whole s ∧ Outside s.head.flag) ∨ Broken s

omit hWait in
theorem Resting.settled {s : State} (h : Resting s) : Settled s :=
  h.elim (fun h => Or.inl h.1.1) fun h => Or.inr (Or.inr h)

omit hWait in
theorem Resting.congr {s t : State} (h : Resting s) (hSame : SameTokens s t)
    (hFlag : Outside s.flag → Outside t.flag)
    (hHead : Outside s.flag → Outside s.head.flag → Outside t.head.flag) : Resting t := by
  rcases h with h | h
  · exact Or.inl ⟨⟨h.1.1.congr hSame, hFlag h.1.2⟩, hHead h.1.2 h.2⟩
  · exact Or.inr (h.congr (hSame.trace ▸ List.prefix_rfl))

omit hWait in
/-- The call of `keyword_match` at the end of a block, or of the input. -/
theorem matchBlock_stopped :
    Triple Stopped (matchBlock env) (fun r s => (r = 0 → Resting s) ∧ Settled s)
      fun e s => (e = .ret 0 → Resting s) ∧ Settled s := by
  have hRest : ∀ {α : Type} (Q : α → State → Prop), Triple Resting (ret 1 : Code α) Q
      fun e s => (e = .ret 0 → Resting s) ∧ Settled s :=
    fun _ => Triple.throw fun s hs => ⟨fun _ => hs, hs.settled⟩
  refine Triple.bind (Q := fun _ => Stopped) (Triple.modify fun s hs => ?_) fun _ => ?_
  · rcases hs with hs | hs | hs
    · exact Or.inl ⟨hs.1.congr ⟨rfl, rfl, rfl, rfl, rfl⟩ rfl, hs.2⟩
    · exact Or.inr (Or.inl ⟨hs.bad, hs.steps, hs.counters⟩)
    · exact Or.inr (Or.inr ⟨hs.bad, hs.steps⟩)
  · refine Triple.bind (Q := fun _ => Resting) (Triple.get_bind fun s hs => Triple.bind
      (Q := fun _ => Resting) (Triple.modify fun t ht => ?_) fun _ => Triple.pure fun _ h => h)
      fun found => Triple.ite (fun _ => ?_) fun _ => Triple.pure fun s hs =>
        ⟨fun _ => hs, hs.settled⟩
    · subst ht
      rcases hs with hs | hs | hs
      · exact Or.inl ⟨⟨hs.1.1.called, hs.1.2⟩, hs.2⟩
      · obtain ⟨e, he, hBad⟩ := hs.bad
        refine Or.inr ⟨⟨e, List.mem_append_left _ he, hBad⟩, fun hSteps => ?_⟩
        exact hs.counters (stepsInStep_append.mp hSteps).2.1
      · exact Or.inr (hs.congr (List.prefix_append _ _))
    · refine Triple.bind (Q := fun _ => Resting) (Triple.modify fun s hs => ?_) fun _ =>
        Triple.get_bind' fun s _ => Triple.bind (Q := fun _ => Resting) (Triple.ite (fun _ =>
          Triple.modify fun t ht => ?_) fun _ => Triple.pure fun _ h => h) fun _ => hRest _
      · exact hs.congr ⟨rfl, rfl, rfl, rfl, rfl⟩ (fun h => h) fun _ h => h
      · exact ht.congr ⟨rfl, rfl, rfl, rfl, rfl⟩ (fun h => h) fun _ h => h

omit hWait in
theorem Fed.whole {s t : State} (h : Fed s t) (hs : Whole s ∧ Outside s.head.flag) :
    Whole t ∧ Outside t.head.flag := by
  refine ⟨hs.1.congr h.sameTokens h.flag, ?_⟩
  obtain ⟨flag, bb, bk, hHead, rfl | rfl⟩ := h.head
  · exact hHead ▸ hs.2
  · exact hHead ▸ hs.1.2

theorem needBits_resting (n fuel : Nat) :
    Within Resting Settled (needBits env n fuel) := by
  have hWhole : Triple (fun s => Whole s ∧ Outside s.head.flag) (needBits env n fuel)
      (fun _ s => Whole s ∧ Outside s.head.flag) fun _ s => Whole s ∧ Outside s.head.flag := by
    refine Triple.of_state fun s hs => (needBits_spec hWait n fuel s).conseq (fun _ ht => ht)
      (fun _ t ht => ?_) fun e t ht => ?_
    · exact ht.1.whole hs
    · rcases ht with ⟨-, hStarved⟩ | ⟨-, hFed⟩
      · refine StarvedAt.whole s.flag hs.1.2 ⟨hStarved.fed.flag, hStarved.saved, s, hs.1.1,
          hStarved.fed.sameTokens, hStarved.trace⟩
      · exact hFed.whole hs
  exact (hWhole.or (hWait.framed.needBits n fuel)).conseq (fun _ hs => hs) (fun _ _ hs => hs)
    fun _ _ hs => ⟨fun _ => hs, Resting.settled hs⟩

theorem stable : Stable env Resting Settled where
  weaken _ hs := hs.settled
  touch s head bb bk hFlag hs :=
    hs.congr ⟨rfl, rfl, rfl, rfl, rfl⟩ (fun h => h) fun _ h => by rw [hFlag]; exact h
  setFlag s flag hFlag hs := hs.congr ⟨rfl, rfl, rfl, rfl, rfl⟩
    (fun _ => hFlag.imp_left fun h => Nat.lt_trans h (by decide)) fun _ h => h
  needBits := needBits_resting hWait
  codesThenMatch tl td bl bd := by
    refine Triple.bind ((inflateCodes_whole hWait tl td bl bd).conseq (fun s hs => ?_)
      (fun _ _ hs => hs) fun e s hs => ?_) fun r => Triple.ite (fun hr => ?_) fun hr => ?_
    · exact hs.imp_left fun h => h.1
    · exact ⟨fun he => by rw [he] at hs; exact Exit.noConfusion hs.1, hs.2⟩
    · refine Triple.bind (Q := fun _ => Settled) (Triple.modify fun s hs => ?_) fun _ =>
        Triple.throw fun s hs => ⟨fun hRet => absurd (Exit.ret.inj hRet) (by decide), hs⟩
      exact (hs.2 hr).congr ⟨rfl, rfl, rfl, rfl, rfl⟩
    · exact matchBlock_stopped.conseq (fun s hs => hs.1 (by simpa using hr)) (fun _ _ hs => hs)
        fun _ _ hs => hs

end Parts

/-! ### Runs -/

/-- The states in which `inflate` is called: first without a flag, and then behind a call that has
returned 0, with what is saved in the head, and with another input. -/
inductive Called (m : Machine) : State → Prop
  | first {s : State} : s.head.flag = 0 → s.litterBuf.isSome → s.distBuf.isSome →
      s.trace = [] →
      Called m s
  | next {s s' t : State} : Called m s → inflate m.env s = .ok 0 s' → t.head = s'.head →
      SameTokens s' t → Called m t

/-- What a call of `inflate` finds. -/
def Callable (s : State) : Prop :=
  Broken s ∨ Clean s ∧ (decoded s.trace).length = none ∧ Outside s.head.flag ∧
    (s.head.flag = 0 ∨ Even s)

theorem Resting.callable {s t : State} (h : Resting s) (hHead : t.head = s.head)
    (hSame : SameTokens s t) : Callable t := by
  rcases h with ⟨hWhole, hFlag⟩ | hBroken
  · have hEven := hWhole.1.congr hSame
    exact Or.inr ⟨hEven.toClean, hEven.length, hHead ▸ hFlag, Or.inr hEven⟩
  · exact Or.inl (hBroken.congr (hSame.trace ▸ List.prefix_rfl))

/-- One call of `inflate`. -/
theorem inflate_callable (m : Machine) :
    Triple Callable (inflate m.env) (fun r s => (r = 0 → Resting s) ∧ Settled s)
      fun _ s => Settled s := by
  refine ((stable m.refills).inflate (S := Callable) fun s hs => ?_).conseq (fun _ hs => hs)
    (fun _ _ hs => hs) fun _ _ hs => hs.2
  rcases hs with hBroken | ⟨hClean, hLength, hFlag, hEven⟩
  · exact Or.inr (hBroken.congr (by split <;> exact List.prefix_rfl))
  · refine Or.inl ?_
    split
    · have hs := hEven.resolve_left ‹_›
      exact ⟨⟨hs.congr ⟨rfl, rfl, rfl, rfl, rfl⟩, hFlag⟩, hFlag⟩
    · refine ⟨⟨⟨⟨hClean.litterBuf, hClean.distBuf, hClean.ok, hClean.steps⟩, rfl,
        hLength, ?_⟩,
        Or.inl (Nat.zero_lt_succ 11)⟩, hFlag⟩
      exact List.nil_suffix

theorem Called.callable {m : Machine} {s : State} (h : Called m s) : Callable s := by
  induction h with
  | first hFlag hLit hDist hTrace =>
    refine Or.inr ⟨⟨hLit, hDist, by simp [hTrace], ?_⟩, by rw [hTrace]; rfl,
      hFlag ▸ Or.inl (Nat.zero_lt_succ 11), Or.inl hFlag⟩
    intro before e hBefore
    rw [hTrace] at hBefore
    simp at hBefore
  | @next s s' t _ hRun hHead hSame ih =>
    have hEnds := (inflate_callable m).ends s ih
    rw [hRun] at hEnds
    exact (hEnds.1 rfl).callable hHead hSame

/-- Behind each call of `inflate` the buffers of tokens have been in step, if and only if no length
has filled `litter_buf`, and no input has ended before the distance of a copy. -/
theorem tokens_in_step {m : Machine} {s : State} (h : Called m s) :
    InStep ((inflate m.env).final s) ↔ ∀ e ∈ ((inflate m.env).final s).trace, e.Ok := by
  refine Settled.inStep_iff ?_
  have hEnds := (inflate_callable m).ends s h.callable
  unfold Code.final
  revert hEnds
  cases inflate m.env s with
  | ok r t => exact fun hEnds => hEnds.2
  | error e t => exact fun hEnds => hEnds

theorem called_ofBlock (m : Machine) (block : Segment) : Called m (State.ofBlock block) :=
  .first rfl rfl rfl rfl

/-- Two literals and a copy of nine bytes: the end of the block calls `keyword_match` with the three
tokens. -/
theorem tokens_in_step_copy :
    calls ((inflate quiet.env).final (State.ofBlock [75, 76, 132, 3, 0])).trace =
      [⟨[(97, 0), (97, 0), (6, 1)], 3, 3⟩] ∧
    InStep ((inflate quiet.env).final (State.ofBlock [75, 76, 132, 3, 0])) :=
  ⟨by decide +kernel, (tokens_in_step (called_ofBlock quiet [75, 76, 132, 3, 0])).mpr
    (by decide +kernel)⟩

theorem StepsInStep.calls {trace : List Event} (h : StepsInStep trace) {c : MatchCall}
    (hCall : c ∈ calls trace) : c.lit = c.dist := by
  obtain ⟨e, he, hc⟩ := List.mem_filterMap.mp hCall
  obtain ⟨before, after, rfl⟩ := List.append_of_mem he
  have hStep := h before e ⟨after, by simp⟩
  cases e with
  | called c' =>
    obtain rfl := Option.some.inj hc
    exact hStep.1
  | _ => cases hc

/-- A literal, and a copy of which the input does not hold the distance. -/
theorem tokens_out_of_step : ¬∀ s, Called quiet s → InStep ((inflate quiet.env).final s) := by
  intro h
  have hStep := (h _ (called_ofBlock quiet [75, 196, 2])).steps
  have hCalls : ⟨[(97, 0), (16, 0)], 2, 1⟩ ∈
      calls ((inflate quiet.env).final (State.ofBlock [75, 196, 2])).trace := by decide +kernel
  exact absurd (hStep.calls hCalls) (by decide)

end Shutter.Gunzip
