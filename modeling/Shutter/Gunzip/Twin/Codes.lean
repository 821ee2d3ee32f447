import Shutter.Gunzip.Twin.Lengths

/-! Two runs of `inflate_codes`, and of the call of `keyword_match` behind it. -/

namespace Shutter.Gunzip

open Shutter.Library

section Codes

variable {live : Prop} {kind : Head → Head → Prop} {nb n : Nat} {env : Env}
  (hWait : env.Blind)
include hWait

theorem codeBits_beside {f : Nat} (hf : 9 ≤ f ∧ f ≤ 14) (n : Nat) {α : Type}
    {x : Unit → Code α} {Q : α → State → State → Prop}
    (hx : Agrees (Beside (CodedAt live)) (x ()) (x ()) Q (Leave live)) :
    Agrees (AtFlag f (Coded live)) (do needBits env n env.fuel; setFlag 0; x ())
      (do needBits env n env.fuel; setFlag 0; x ()) Q (Leave live) :=
  Agrees.bind (needBits_beside hWait (by omega) (Coded.keepable hf) n env.fuel) fun _ =>
    Agrees.bind (beside_setFlag fun _ _ _ hk => ⟨Or.inl rfl, hk.2⟩) fun _ => hx

theorem firstBits_beside (bl : Nat) (v : Codes) :
    Agrees (Beside (Coding live)) (firstBits env bl v) (firstBits env bl v)
      (fun _ => Beside (CodedAt live))
      (Leave live) := by
  refine beside_get fun s head length hHead => agrees_onlyIf Iff.rfl (fun _ => ?_) fun hOther => ?_
  · refine Agrees.bind (beside_setFlag (B := fun f h h' => f = 9 ∧ Coding live s.flag h h')
      fun f h h' hf => ⟨rfl, hf.2.1 ▸ hf.1⟩) fun _ => Agrees.bind (beside_modifyHead
      (B := fun f h h' => f = 9 ∧ Coded live h h') fun f h h' hf => ⟨hf.1, ?_⟩) fun _ => ?_
    · exact ⟨{ hf.2.twin with kept := fun hLive => { hf.2.twin.kept hLive with } },
        { hf.2.saved with }, hf.2.type, rfl⟩
    · exact codeBits_beside hWait (by decide) bl (x := fun _ => pure ())
        (Agrees.pure fun _ _ h => h)
  · refine fun _ _ hst => hst.mono fun f h h' hf => ?_
    obtain ⟨hc, rfl, -⟩ := hf
    have hLow : 9 ≤ s.flag := hc.reached.resolve_left fun h => hOther (Or.inl h)
    have hHigh : s.flag ≤ 14 := by
      by_contra hLarge
      exact hc.type (hc.local_.stored (by omega))
    exact ⟨Or.inr ⟨hLow, hHigh⟩, hc.twin, hc.saved, hc.type, (hc.local_.codes hLow hHigh).2⟩

theorem descendLit_beside (fuel : Nat) (v : Codes) :
    Agrees (Beside (CodedAt live)) (descendLit env fuel v) (descendLit env fuel v)
      (fun _ => Beside (CodedAt live))
      (Leave live) := by
  induction fuel generalizing v with
  | zero => exact beside_spin
  | succ fuel ih =>
    refine Rel.ite Iff.rfl (fun _ => beside_ret (by decide) fun _ _ _ h =>
      h.2.twin.toLeft) fun _ => ?_
    refine Agrees.bind (beside_dumpBits _) fun _ => beside_get' fun s head length _ => ?_
    refine Agrees.bind (beside_setFlag (B := fun f h h' => f = 10 ∧ Coded live h h')
      fun f h h' hf => ⟨rfl, hf.2⟩) fun _ => Agrees.bind (beside_modifyHead
      (B := fun f h h' => f = 10 ∧ Coded live h h') fun f h h' hf => ⟨hf.1, hf.2.setLook _ _⟩)
      fun _ => ?_
    refine Agrees.bind (needBits_beside hWait (by decide) (Coded.keepable (by decide)) _ env.fuel)
      fun _ => beside_get' fun u head' length' hHead' => ?_
    have htt : head'.tt = u.head.tt := hHead'.2.twin.tt
    dsimp only
    rw [htt]
    refine Rel.ite Iff.rfl (fun _ => beside_ret (by decide) fun _ _ _ h =>
      h.2.twin.toLeft) fun _ => ?_
    refine Agrees.bind (beside_setFlag (B := CodedAt live) fun f h h' hf => ⟨Or.inl rfl, hf.2⟩)
      fun _ => beside_bits fun b => ?_
    exact agrees_onlyIf Iff.rfl (fun _ => ih _) fun _ _ _ hst => hst

theorem descendDist_beside (fuel : Nat) (v : Codes) :
    Agrees (Beside (CodedAt live)) (descendDist env fuel v) (descendDist env fuel v)
      (fun _ => Beside (CodedAt live)) (Leave live) := by
  induction fuel generalizing v with
  | zero => exact beside_spin
  | succ fuel ih =>
    refine Rel.ite Iff.rfl (fun _ => beside_ret (by decide) fun _ _ _ h =>
      h.2.twin.toLeft) fun _ => ?_
    refine beside_get' fun s head length _ => Agrees.bind (Q := fun _ => Beside (CodedAt live))
      (agrees_onlyIf Iff.rfl (fun _ => Agrees.bind (beside_dumpBits _) fun _ =>
        Agrees.pure fun _ _ hst => hst) fun _ _ _ hst => hst) fun e => ?_
    refine Agrees.bind (beside_modifyHead (B := CodedAt live) fun f h h' hf =>
      ⟨hf.1, hf.2.setLook _ _⟩) fun _ => Agrees.bind (beside_setFlag
      (B := fun f h h' => f = 13 ∧ Coded live h h') fun f h h' hf => ⟨rfl, hf.2⟩) fun _ => ?_
    refine codeBits_beside hWait (by decide) e (x := fun _ => _) (beside_bits fun b => ?_)
    exact agrees_onlyIf Iff.rfl (fun _ => ih _) fun _ _ _ hst => hst

theorem litCode_beside (tl : HuftPtr) (bl : Nat) (v : Codes) :
    Agrees (Beside (CodedAt live)) (litCode env tl bl v) (litCode env tl bl v)
      (fun _ => Beside (CodedAt live))
      (Leave live) := by
  refine beside_get' fun s head length _ => agrees_onlyIf Iff.rfl (fun _ => ?_) fun _ _ _ hst => hst
  refine beside_get' fun u _ _ _ => beside_bits fun b => Agrees.bind (agrees_onlyIf Iff.rfl
    (fun _ => descendLit_beside hWait env.fuel _) fun _ _ _ hst => hst) fun v => ?_
  exact Agrees.bind (beside_dumpBits _) fun _ => Agrees.pure fun _ _ hst => hst

omit hWait in
theorem keywordMatch_beside {A : Nat → Head → Head → Prop}
    {E : Exit → State → State → Prop} :
    Agrees (Beside A) (keywordMatch env) (keywordMatch env) (fun _ => Beside A) E :=
  beside_get' fun _ _ _ _ => Agrees.bind (beside_record _) fun _ => Agrees.pure fun _ _ hst => hst

omit hWait in
theorem flush_beside (v : Codes) :
    Agrees (Beside (CodedAt live)) (flush env v) (flush env v) (fun _ => Beside (CodedAt live))
      (Leave live) := by
  refine Agrees.bind keywordMatch_beside fun found => Rel.ite Iff.rfl (fun _ => ?_) fun _ => ?_
  · refine Agrees.bind (Q := fun _ => Beside (CodedAt live))
      (Agrees.modify fun s t hst => ?_) fun _ =>
      beside_ret (by decide) fun _ _ _ h => h.2.twin.toLeft
    obtain ⟨head, length, rfl, hc⟩ := hst
    exact ⟨{ head with tt := none }, length, rfl, hc.1, hc.2.setTt none⟩
  · refine Agrees.bind (Q := fun _ => Beside (CodedAt live))
      (Agrees.modify fun s t hst => ?_) fun _ =>
      Rel.ite Iff.rfl (fun _ => ?_) fun _ => Agrees.pure fun _ _ hst => hst
    · obtain ⟨head, length, rfl, hc⟩ := hst
      exact ⟨head, 0, rfl, hc⟩
    · exact Agrees.bind (beside_modifyHead (B := CodedAt live) fun f h h' hf =>
        ⟨hf.1, hf.2.setTt _⟩)
        fun _ => beside_ret (by decide) fun _ _ _ h => h.2.twin.toLeft

omit hWait in
theorem literal_beside (v : Codes) :
    Agrees (Beside (CodedAt live)) (literal env v) (literal env v)
      (fun _ => Beside (CodedAt live)) (Leave live) := by
  refine Agrees.bind (beside_modifyHead (B := CodedAt live) fun f h h' hf =>
    ⟨hf.1, hf.2.setEe _⟩)
    fun _ => Rel.ite Iff.rfl (fun _ => beside_ret (by decide) fun _ _ _ h => h.2.twin.toLeft)
    fun _ => ?_
  refine Agrees.bind (beside_recordToken _) fun _ =>
    Agrees.bind (beside_modify (fun _ _ _ => rfl) (fun _ => rfl) fun _ => rfl) fun _ =>
    Agrees.bind (beside_modify (fun _ _ _ => rfl) (fun _ => rfl) fun _ => rfl) fun _ =>
    beside_get' fun _ _ _ _ => ?_
  exact agrees_onlyIf Iff.rfl (fun _ => flush_beside v) fun _ _ _ hst => hst

omit hWait in
theorem endOfBlock_beside :
    Agrees (Beside (CodedAt live)) endOfBlock endOfBlock
      (fun _ => Beside fun f h h' => CodedAt live f h h' ∧ h.flag = 0) (Leave live) := by
  refine beside_get' fun s _ _ _ => Agrees.bind (agrees_onlyIf Iff.rfl (fun _ =>
    beside_modify (fun _ _ _ => rfl) (fun _ => rfl) fun _ => rfl) fun _ _ _ hst => hst) fun _ => ?_
  refine Agrees.bind (beside_modifyHead (B := fun f h h' => CodedAt live f h h' ∧ h.flag = 0)
    fun f h h' hf => ⟨⟨hf.1, hf.2.ended⟩, rfl⟩) fun _ => beside_get' fun u _ _ _ => ?_
  exact agrees_onlyIf Iff.rfl (fun _ =>
    beside_modify (fun _ _ _ => rfl) (fun _ => rfl) fun _ => rfl) fun _ _ _ hst => hst

theorem copyLength_beside (v : Codes) :
    Agrees (Beside (CodedAt live)) (copyLength env v) (copyLength env v)
      (fun _ => Beside (CodedAt live))
      (Leave live) := by
  refine beside_get' fun s _ _ _ => agrees_onlyIf Iff.rfl (fun _ => ?_) fun _ _ _ hst => hst
  refine Agrees.bind (beside_modifyHead (B := CodedAt live) fun f h h' hf =>
    ⟨hf.1, hf.2.setLook _ _⟩) fun _ => Agrees.bind (beside_setFlag
    (B := fun f h h' => f = 11 ∧ Coded live h h') fun f h h' hf => ⟨rfl, hf.2⟩) fun _ => ?_
  refine codeBits_beside hWait (by decide) v.e (x := fun _ => _) ?_
  refine beside_get' fun u head' _ hHead' => ?_
  have htt : head'.tt = u.head.tt := hHead'.2.twin.tt
  dsimp only
  rw [htt]
  refine Rel.ite Iff.rfl (fun _ => beside_ret (by decide) fun _ _ _ h =>
    h.2.twin.toLeft) fun _ => ?_
  refine beside_bits fun b => Agrees.bind (beside_recordToken _) fun _ =>
    Agrees.bind (beside_modify (fun _ _ _ => rfl) (fun _ => rfl) fun _ => rfl) fun _ =>
    beside_get' fun _ _ _ _ => Agrees.bind (agrees_onlyIf Iff.rfl (fun _ => flush_beside v)
      fun _ _ _ hst => hst) fun v => ?_
  exact Agrees.bind (beside_dumpBits _) fun _ => Agrees.pure fun _ _ hst => hst

theorem distBits_beside (bd : Nat) (v : Codes) :
    Agrees (Beside (CodedAt live)) (distBits env bd v) (distBits env bd v)
      (fun _ => Beside (CodedAt live))
      (Leave live) := by
  refine beside_get' fun s _ _ _ => agrees_onlyIf Iff.rfl (fun _ => ?_) fun _ _ _ hst => hst
  refine Agrees.bind (beside_modifyHead (B := CodedAt live) fun f h h' hf =>
    ⟨hf.1, hf.2.setLook _ _⟩) fun _ => Agrees.bind (beside_setFlag
    (B := fun f h h' => f = 12 ∧ Coded live h h') fun f h h' hf => ⟨rfl, hf.2⟩) fun _ => ?_
  exact codeBits_beside hWait (by decide) bd (x := fun _ => pure ()) (Agrees.pure fun _ _ h => h)

theorem distCode_beside (td : HuftPtr) (bd : Nat) (v : Codes) :
    Agrees (Beside (CodedAt live)) (distCode env td bd v) (distCode env td bd v)
      (fun _ => Beside (CodedAt live))
      (Leave live) := by
  refine beside_get' fun s head length _ => agrees_onlyIf Iff.rfl (fun _ => ?_) fun _ _ _ hst => hst
  refine beside_get' fun u _ _ _ => beside_bits fun b => Agrees.bind (agrees_onlyIf Iff.rfl
    (fun _ => descendDist_beside hWait env.fuel _) fun _ _ _ hst => hst) fun v => ?_
  exact Agrees.bind (beside_dumpBits _) fun _ => Agrees.bind (beside_modifyHead (B := CodedAt live)
    fun f h h' hf => ⟨hf.1, hf.2.setEe _⟩) fun _ => Agrees.pure fun _ _ hst => hst

theorem copyDist_beside (v : Codes) :
    Agrees (Beside (CodedAt live)) (copyDist env v) (copyDist env v)
      (fun _ => Beside (CodedAt live)) (Leave live) := by
  refine beside_get' fun s _ _ _ => agrees_onlyIf Iff.rfl (fun _ => ?_) fun _ _ _ hst => hst
  refine Agrees.bind (beside_setFlag (B := fun f h h' => f = 14 ∧ Coded live h h')
    fun f h h' hf => ⟨rfl, hf.2⟩) fun _ => Agrees.bind (beside_modifyHead
    (B := fun f h h' => f = 14 ∧ Coded live h h') fun f h h' hf =>
      ⟨hf.1, hf.2.setTt _⟩) fun _ => ?_
  refine codeBits_beside hWait (by decide) v.e (x := fun _ => _) ?_
  refine beside_get' fun u head' _ hHead' => ?_
  have htt : head'.tt = u.head.tt := hHead'.2.twin.tt
  dsimp only
  rw [htt]
  refine Rel.ite Iff.rfl (fun _ => beside_ret (by decide) fun _ _ _ h =>
    h.2.twin.toLeft) fun _ => ?_
  refine beside_bits fun b => Agrees.bind (beside_recordToken _) fun _ =>
    Agrees.bind (beside_modify (fun _ _ _ => rfl) (fun _ => rfl) fun _ => rfl) fun _ =>
    beside_get' fun _ _ _ _ => Agrees.bind (agrees_onlyIf Iff.rfl (fun _ => flush_beside v)
      fun _ _ _ hst => hst) fun v => ?_
  exact Agrees.bind (beside_dumpBits _) fun _ => Agrees.pure fun _ _ hst => hst

omit hWait in
theorem countRounds_beside (v : Codes) :
    Agrees (Beside (CodedAt live)) (countRounds v) (countRounds v)
      (fun next s t => next ≠ none ∧ Beside (CodedAt live) s t) (Leave live) := by
  refine Rel.ite Iff.rfl (fun _ => Rel.ite Iff.rfl (fun _ => ?_) fun _ => ?_) fun _ => ?_
  · exact Agrees.bind (beside_modifyHead (B := CodedAt live) fun f h h' hf =>
      ⟨hf.1, hf.2.setTt _⟩)
      fun _ => beside_ret (by decide) fun _ _ _ h => h.2.twin.toLeft
  · exact Agrees.pure fun _ _ hst => ⟨nofun, hst⟩
  · exact Agrees.pure fun _ _ hst => ⟨nofun, hst⟩

/-- A round of the loop, and the end of a block. -/
def RoundEnd (live : Prop) (next : Option Codes) (s t : State) : Prop :=
  Beside (fun f h h' => CodedAt live f h h' ∧ (next = none → h.flag = 0)) s t

theorem codesRound_beside (tl td : HuftPtr) (bl bd : Nat) (v : Codes) :
    Agrees (Beside (Coding live)) (codesRound env tl td bl bd v) (codesRound env tl td bl bd v)
      (RoundEnd live)
      (Leave live) := by
  have hCount : ∀ v, Agrees (Beside (CodedAt live)) (countRounds v) (countRounds v)
    (RoundEnd live)
      (Leave live) := fun v => (countRounds_beside v).conseq (fun _ _ hst => hst) (fun _ _ _ hst =>
      hst.2.mono fun _ _ _ hk => ⟨hk, fun hNone => absurd hNone hst.1⟩) fun _ _ _ hst => hst
  refine Agrees.bind (firstBits_beside hWait bl v) fun _ =>
    Agrees.bind (litCode_beside hWait tl bl v) fun v => Rel.ite Iff.rfl (fun _ => ?_) fun _ =>
    Rel.ite Iff.rfl (fun _ => ?_) fun _ => ?_
  · exact Agrees.bind (literal_beside v) hCount
  · exact Agrees.bind endOfBlock_beside fun _ => Agrees.pure fun _ _ hst =>
      hst.mono fun _ _ _ hk => ⟨hk.1, fun _ => hk.2⟩
  · exact Agrees.bind (copyLength_beside hWait v) fun v =>
      Agrees.bind (distBits_beside hWait bd v) fun _ =>
      Agrees.bind (distCode_beside hWait td bd v) fun v =>
      Agrees.bind (copyDist_beside hWait v) hCount

theorem codesLoop_beside (tl td : HuftPtr) (bl bd fuel : Nat) (v : Codes) :
    Agrees (Beside (Coding live)) (codesLoop env tl td bl bd fuel v)
      (codesLoop env tl td bl bd fuel v)
      (fun _ => Beside fun f h h' => CodedAt live f h h' ∧ h.flag = 0) (Leave live) := by
  induction fuel generalizing v with
  | zero => exact beside_spin
  | succ fuel ih =>
    refine Agrees.bind (codesRound_beside hWait tl td bl bd v) fun next => ?_
    cases next with
    | none => exact Agrees.pure fun _ _ hst => hst.mono fun _ _ _ hk => ⟨hk.1, hk.2 rfl⟩
    | some v =>
      refine (ih v).conseq (fun _ _ hst => hst.mono fun f h h' hk => ?_) (fun _ _ _ hst => hst)
        fun _ _ _ hst => hst
      obtain ⟨⟨hFlag, hc⟩, -⟩ := hk
      refine ⟨hc.twin, hc.saved, hc.type, hFlag.imp_right fun h => h.1, ?_⟩
      rcases hFlag with rfl | hFlag
      · exact Local.early (by decide) _ _
      · exact hc.local_ hFlag

theorem inflateCodes_beside (tl td : HuftPtr) (bl bd : Nat) :
    Agrees (Beside (Coding live)) (inflateCodes env tl td bl bd) (inflateCodes env tl td bl bd)
      (BlockEnd live)
      (Leave live) := by
  refine agrees_blockEnd' (beside_get fun s head length hHead => ?_)
  have hStart :
    (if s.flag ≠ 0 then (⟨head.ee, head.tt, 0, 0⟩ : Codes) else ⟨env.stale, none, 0, 0⟩) =
      if s.flag ≠ 0 then ⟨s.head.ee, s.head.tt, 0, 0⟩ else ⟨env.stale, none, 0, 0⟩ := by
    by_cases hFlag : s.flag = 0
    · rw [if_neg fun h => h hFlag, if_neg fun h => h hFlag]
    · have hLow := hHead.reached.resolve_left hFlag
      have hHigh : s.flag ≤ 14 := by
        by_contra hLarge
        exact hHead.type (hHead.local_.stored (by omega))
      rw [if_pos hFlag, if_pos hFlag, (hHead.local_.codes hLow hHigh).2, hHead.twin.tt]
  dsimp only
  rw [hStart]
  refine Agrees.bind ((codesLoop_beside hWait _ _ _ _ _ _).conseq (fun _ _ hst =>
    hst.mono fun _ _ _ hk => hk.1) (fun _ _ _ hst => hst) fun _ _ _ hst => hst) fun _ =>
    Agrees.bind (Q := fun _ => Beside (Done live)) (Agrees.modify fun u v huv => ?_) fun _ =>
    Agrees.pure fun _ _ hst => Done.blockEnd hst
  obtain ⟨head', length', rfl, ⟨hFlag, hc⟩, hZero⟩ := huv
  have hTwin : Twin live { u.head with bb := u.bb, bk := u.bk }
    { head' with bb := u.bb, bk := u.bk } :=
    { hc.twin with kept := fun hLive => { hc.twin.kept hLive with }, bits := fun _ =>
      ⟨rfl, rfl⟩ }
  refine ⟨{ head' with bb := u.bb, bk := u.bk }, length', rfl, ?_, fun _ =>
    ⟨hTwin, ?_, ?_, ?_⟩,
    fun _ => hFlag.imp_right fun h => h.1⟩
  · refine hTwin.ready (Saved.start _ _ ?_) (Local.early ?_ _ _)
    · show u.head.flag < 2
      omega
    · show u.head.flag < 3
      omega
  · exact { (hc.saved.of_nine (f := u.flag)) with }
  · exact hc.saved.e (by decide)
  · rcases hFlag with hNone | hFlag
    · exact hNone ▸ Local.early (by decide) _ _
    · exact { hc.local_ hFlag with stale := fun _ h8 => absurd h8 (Nat.not_le.mpr hFlag.1) }

omit hWait in
theorem matchBlock_beside :
    Agrees (Beside (Done live)) (matchBlock env) (matchBlock env) (BlockEnd live) (Leave live) := by
  refine Agrees.bind (Q := fun _ => Beside (Done live)) (Agrees.modify fun s t hst => ?_) fun _ =>
    Agrees.bind keywordMatch_beside fun found => Rel.ite Iff.rfl (fun _ => ?_) fun _ =>
    Agrees.pure fun _ _ hst => Done.blockEnd hst
  · obtain ⟨head, length, rfl, hDone⟩ := hst
    exact ⟨head, s.lit, rfl, hDone⟩
  · refine Agrees.bind (beside_modify (fun _ _ _ => rfl) (fun _ => rfl) fun _ => rfl) fun _ =>
      beside_get' fun u head length hHead => ?_
    have hFlag : head.flag = u.head.flag := hHead.ready.flag
    dsimp only
    rw [hFlag]
    refine Agrees.bind (Q := fun _ => Beside fun _ => Left live) (agrees_onlyIf Iff.rfl (fun _ =>
      beside_modifyHead fun f h h' hk => hk.ready.toLeft.dropTables) fun _ _ _ hst =>
      hst.mono fun _ _ _ hk => hk.ready.toLeft) fun _ => ?_
    exact beside_ret (by decide) fun _ _ _ h => h

theorem codesThenMatch_beside (tl td : HuftPtr) (bl bd : Nat) :
    Agrees (Beside (Coding live)) (codesThenMatch env tl td bl bd)
      (codesThenMatch env tl td bl bd) (BlockEnd live)
      (Leave live) := by
  refine Agrees.bind (inflateCodes_beside hWait tl td bl bd) fun r => Rel.ite Iff.rfl (fun hr => ?_)
    fun hr => ?_
  · refine Agrees.bind (Q := fun _ => Beside fun _ => Left live)
      (Agrees.conseq (R := Beside fun _ => Left live)
      (beside_modifyHead fun f h h' hk => hk.dropTables) (fun _ _ hst => hst.2) (fun _ _ _ h => h)
      fun _ _ _ h => h) fun _ => beside_ret (by decide) fun _ _ _ h => h
  · exact matchBlock_beside.conseq (fun _ _ hst => hst.1 (by simpa using hr)) (fun _ _ _ h => h)
      fun _ _ _ h => h

end Codes

end Shutter.Gunzip
