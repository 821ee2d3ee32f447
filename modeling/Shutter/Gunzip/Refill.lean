import Shutter.Gunzip.Response
import Shutter.Library.Exec

/-! What `waitbuf` and `NEEDBITS` leave alone. -/

namespace Shutter.Gunzip

open Shutter.Library
open Shutter.Stream (Segment)

/-- What `waitbuf` keeps: all but the block, the input buffer, and the state of the chunk. -/
structure Refilled (s t : State) : Prop where
  head : t.head = s.head
  httpFlag : t.httpFlag = s.httpFlag
  textFlag : t.textFlag = s.textFlag
  uchunkFlag : t.uchunkFlag = s.uchunkFlag
  length : t.length = s.length
  lit : t.lit = s.lit
  dist : t.dist = s.dist
  litterBuf : t.litterBuf = s.litterBuf
  distBuf : t.distBuf = s.distBuf
  down : t.down = s.down
  gkState : t.gkState = s.gkState
  flag : t.flag = s.flag
  bb : t.bb = s.bb
  bk : t.bk = s.bk
  taken : t.taken = s.taken
  trace : t.trace = s.trace

theorem Refilled.refl (s : State) : Refilled s s := by constructor <;> rfl

theorem Refilled.trans {s t u : State} (h₁ : Refilled s t) (h₂ : Refilled t u) :
    Refilled s u where
  head := h₂.head.trans h₁.head
  httpFlag := h₂.httpFlag.trans h₁.httpFlag
  textFlag := h₂.textFlag.trans h₁.textFlag
  uchunkFlag := h₂.uchunkFlag.trans h₁.uchunkFlag
  length := h₂.length.trans h₁.length
  lit := h₂.lit.trans h₁.lit
  dist := h₂.dist.trans h₁.dist
  litterBuf := h₂.litterBuf.trans h₁.litterBuf
  distBuf := h₂.distBuf.trans h₁.distBuf
  down := h₂.down.trans h₁.down
  gkState := h₂.gkState.trans h₁.gkState
  flag := h₂.flag.trans h₁.flag
  bb := h₂.bb.trans h₁.bb
  bk := h₂.bk.trans h₁.bk
  taken := h₂.taken.trans h₁.taken
  trace := h₂.trace.trans h₁.trace

/-- The function that stands for `waitbuf` always ends, and keeps what `waitbuf` keeps. -/
def Env.Refills (env : Env) : Prop :=
  ∀ s, Triple (fun t => t = s) env.waitbuf (fun _ t => Refilled s t) fun _ _ => False

section Waitbuf

variable {s : State} (m : Memory)

theorem Refilled.modify {f : State → State} (hf : ∀ t, Refilled t (f t)) :
    Triple (Refilled s) (modify f : Code Unit) (fun _ => Refilled s) fun _ _ => False :=
  Triple.modify fun t ht => ht.trans (hf t)

theorem chunkHeader_refilled (block : Segment) (size : List UInt8) (p : Nat) :
    Triple (Refilled s) (chunkHeader m block size p) (fun _ => Refilled s) fun _ _ => False :=
  Triple.bind (Refilled.modify fun _ => by constructor <;> rfl) fun _ => Triple.ite
    (fun _ => Refilled.modify fun _ => by constructor <;> rfl)
    fun _ => Refilled.modify fun _ => by constructor <;> rfl

theorem fillBuffer_refilled (next : Bool) (block : Segment) :
    Triple (Refilled s) (fillBuffer m next block) (fun _ => Refilled s) fun _ _ => False := by
  refine Triple.bind (Refilled.modify fun _ => by constructor <;> rfl) fun _ =>
    Triple.get_bind' fun t _ => ?_
  refine Triple.ite (fun _ => Refilled.modify fun _ => by constructor <;> rfl) fun _ =>
    Triple.ite (fun _ => Refilled.modify fun _ => by constructor <;> rfl) fun _ =>
    Triple.ite (fun _ => chunkHeader_refilled m _ _ _) fun _ => Triple.ite (fun _ => ?_) fun _ =>
    Refilled.modify fun _ => by constructor <;> rfl
  exact Triple.ite (fun _ => Refilled.modify fun _ => by constructor <;> rfl) fun _ =>
    chunkHeader_refilled m _ _ _

theorem Machine.refills (m : Machine) : m.env.Refills := by
  intro s
  refine Triple.conseq (P := Refilled s) ?_ (fun t ht => ht ▸ Refilled.refl s) (fun _ _ h => h)
    fun _ _ h => h
  refine Triple.bind (Refilled.modify fun _ => by constructor <;> rfl) fun _ =>
    Triple.get_bind' fun t _ => ?_
  cases t.block with
  | none => exact Refilled.modify fun _ => by constructor <;> rfl
  | some block =>
    refine Triple.ite (fun _ => ?_) fun _ => fillBuffer_refilled m.toMemory _ _
    cases t.nextBlock with
    | none => exact Refilled.modify fun _ => by constructor <;> rfl
    | some next =>
      exact Triple.bind (Refilled.modify fun _ => by constructor <;> rfl) fun _ =>
        fillBuffer_refilled m.toMemory _ _

end Waitbuf

/-- What `NEEDBITS` keeps: all but what `waitbuf` writes, the bits, and the place where they are
saved. -/
structure Fed (s t : State) : Prop where
  head : ∃ flag bb bk, t.head = { s.head with flag, bb, bk } ∧
    (flag = s.head.flag ∨ flag = s.flag)
  httpFlag : t.httpFlag = s.httpFlag
  textFlag : t.textFlag = s.textFlag
  uchunkFlag : t.uchunkFlag = s.uchunkFlag
  length : t.length = s.length
  lit : t.lit = s.lit
  dist : t.dist = s.dist
  litterBuf : t.litterBuf = s.litterBuf
  distBuf : t.distBuf = s.distBuf
  down : t.down = s.down
  gkState : t.gkState = s.gkState
  flag : t.flag = s.flag
  trace : t.trace = s.trace

theorem Fed.refl (s : State) : Fed s s where
  head := ⟨_, _, _, rfl, Or.inl rfl⟩
  httpFlag := rfl
  textFlag := rfl
  uchunkFlag := rfl
  length := rfl
  lit := rfl
  dist := rfl
  litterBuf := rfl
  distBuf := rfl
  down := rfl
  gkState := rfl
  flag := rfl
  trace := rfl

theorem Fed.trans {s t u : State} (h₁ : Fed s t) (h₂ : Fed t u) : Fed s u where
  head := by
    obtain ⟨flag₁, bb₁, bk₁, hHead₁, hFlag₁⟩ := h₁.head
    obtain ⟨flag₂, bb₂, bk₂, hHead₂, hFlag₂⟩ := h₂.head
    refine ⟨flag₂, bb₂, bk₂, by rw [hHead₂, hHead₁], ?_⟩
    rw [hHead₁, h₁.flag] at hFlag₂
    rcases hFlag₂ with hSame | hSame
    · exact hSame ▸ hFlag₁
    · exact Or.inr hSame
  httpFlag := h₂.httpFlag.trans h₁.httpFlag
  textFlag := h₂.textFlag.trans h₁.textFlag
  uchunkFlag := h₂.uchunkFlag.trans h₁.uchunkFlag
  length := h₂.length.trans h₁.length
  lit := h₂.lit.trans h₁.lit
  dist := h₂.dist.trans h₁.dist
  litterBuf := h₂.litterBuf.trans h₁.litterBuf
  distBuf := h₂.distBuf.trans h₁.distBuf
  down := h₂.down.trans h₁.down
  gkState := h₂.gkState.trans h₁.gkState
  flag := h₂.flag.trans h₁.flag
  trace := h₂.trace.trans h₁.trace

theorem Refilled.fed {s t : State} (h : Refilled s t) : Fed s t :=
  { h with head := ⟨_, _, _, h.head, Or.inl rfl⟩ }

/-- How `NEEDBITS` leaves a function: it has run out of input, and the flag is saved. -/
structure Starved (s t : State) : Prop where
  fed : Fed s { t with trace := s.trace }
  saved : t.head.flag = s.flag
  trace : t.trace = s.trace ++ [.starved s.flag]

/-- `NEEDBITS` gets the bits, or leaves the function with 0. -/
theorem needBits_spec {env : Env} (hWait : env.Refills) (n fuel : Nat) (s : State) :
    Triple (fun t => t = s) (needBits env n fuel) (fun _ t => Fed s t ∧ n ≤ t.bk)
      fun e t => (e = .ret 0 ∧ Starved s t) ∨ (e = .spin ∧ Fed s t) := by
  induction fuel generalizing s with
  | zero => exact Triple.throw fun t ht => Or.inr ⟨rfl, ht ▸ Fed.refl s⟩
  | succ fuel ih =>
    -- the rest of the loop, behind a state that has been fed
    have hRest : Triple (Fed s) (needBits env n fuel) (fun _ t => Fed s t ∧ n ≤ t.bk)
        fun e t => (e = .ret 0 ∧ Starved s t) ∨ (e = .spin ∧ Fed s t) := by
      refine Triple.of_state fun t ht => (ih t).conseq (fun _ h => h)
        (fun _ u hu => ⟨ht.trans hu.1, hu.2⟩) fun e u hu => ?_
      rcases hu with ⟨rfl, hu⟩ | ⟨rfl, hu⟩
      · refine Or.inl ⟨rfl, ?_, hu.saved.trans ht.flag, by rw [hu.trace, ht.trace, ht.flag]⟩
        have hFed := ht.trans hu.fed
        rw [ht.trace] at hFed
        exact hFed
      · exact Or.inr ⟨rfl, ht.trans hu⟩
    refine Triple.get_bind fun t ht => ?_
    subst ht
    refine Triple.ite (fun _ => Triple.ite (fun _ => ?_) fun _ => ?_) fun hEnough => ?_
    · refine Triple.bind (Q := fun _ => Fed t) ⟨fun u hu => ?_⟩ fun _ => hRest
      exact ⟨⟨_, _, _, rfl, Or.inl rfl⟩, rfl, rfl, rfl, rfl, rfl, rfl, rfl, rfl, rfl,
        rfl, rfl, rfl⟩
    · refine Triple.bind (Q := fun _ u => Fed t u ∧ u.head.flag = t.flag)
        (Triple.modify fun u hu => ?_)
        fun _ => ?_
      · subst hu
        exact ⟨⟨⟨_, _, _, rfl, Or.inr rfl⟩, rfl, rfl, rfl, rfl, rfl, rfl, rfl, rfl, rfl,
          rfl, rfl, rfl⟩,
          rfl⟩
      · refine Triple.bind (Q := fun _ u => Fed t u ∧ u.head.flag = t.flag)
          (Triple.of_state fun u hu => (hWait u).conseq (fun _ h => h)
            (fun _ v hv => ⟨hu.1.trans hv.fed, by rw [hv.head, hu.2]⟩) fun _ _ h =>
              h.elim) fun _ => ?_
        refine Triple.get_bind' fun u _ => Triple.bind (Q := fun _ => Fed t)
          (Triple.ite (fun _ => ?_)
          fun _ => Triple.pure fun _ h => h.1) fun _ => hRest
        refine Triple.bind (Q := fun _ v => Fed t v ∧ v.head.flag = t.flag)
          (Triple.modify fun v hv => ⟨hv.1.trans ?_, hv.2⟩) fun _ => ?_
        · exact ⟨⟨_, _, _, rfl, Or.inl rfl⟩, rfl, rfl, rfl, rfl, rfl, rfl, rfl, rfl, rfl,
            rfl, rfl, rfl⟩
        · refine Triple.bind (Q := fun _ => Starved t) (Triple.modify fun v hv => ?_) fun _ =>
            Triple.throw fun v hv => Or.inl ⟨rfl, hv⟩
          refine ⟨?_, hv.2, by rw [hv.1.trace]⟩
          exact { hv.1 with trace := rfl }
    · exact Triple.pure fun u hu => ⟨hu ▸ Fed.refl t, by rw [hu]; omega⟩

end Shutter.Gunzip
