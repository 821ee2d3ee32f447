import Shutter.Gunzip.Twin.Codes

/-! Two runs of the functions for a block, and of `inflate`. -/

namespace Shutter.Gunzip

open Shutter.Library

/-- `inflate_dynamic` behind the table of the bit length codes. -/
def dynamicCodes (env : Env) : Code Nat := do
  let s ← get
  let n := s.head.nl + s.head.nd
  onlyIf (s.flag = 0 ∨ s.flag = 7 ∨ s.flag = 8) () (codeLengths env n s.head.bl n 0 0)
  onlyIf ((← get).flag < 9) () (buildTables env)
  let h := (← get).head
  match h.tl, h.td with
  | some tl, some td => codesThenMatch env tl td h.bl h.bd
  | _, _ => ret 1

/-- `inflate_dynamic`, from the local `j` on. -/
def inflateLengths (env : Env) (j : Nat) : Code Nat := do
  readField env 3 5 fun x h => { h with nl := 257 + x }
  readField env 4 5 fun x h => { h with nd := 1 + x }
  readField env 5 4 fun x h => { h with nb := 4 + x }
  let h := (← get).head
  if 286 < h.nl ∨ 30 < h.nd then ret 1
  else
    buildBitLengths env j
    dynamicCodes env

section Inflate

variable {live : Prop} {kind : Head → Head → Prop} {nb n : Nat} {env : Env}
  (hWait : env.Blind)
include hWait

theorem inflateFixed_beside :
    Agrees (Beside fun f h h' => Stage live 3 Resumes f h h' ∧ h.t = 1) (inflateFixed env)
      (inflateFixed env) (BlockEnd live) (Leave live) := by
  unfold inflateFixed
  generalize huftBuild env.stale fixedLengths 257 (some cplens) (some cplext) 7 = lits
  generalize huftBuild env.stale (List.replicate 30 5) 0 (some cpdist) (some cpdext) 5 = dists
  have hFail : ∀ {r : Nat}, r ≠ 0 →
      Agrees (Beside (Coding live)) (ret r : Code Nat) (ret r) (BlockEnd live) (Leave live) :=
    fun hr => beside_ret hr fun _ _ _ h => h.twin.toLeft
  refine agrees_blockEnd' (Agrees.conseq (R := Beside (Coding live)) ?_ (fun _ _ hst => hst.mono
    fun f h h' hk => hk.1.coding (by rw [hk.2]; decide) (by rw [hk.2]; decide)) (fun _ _ _ h => h)
    fun _ _ _ h => h)
  refine Agrees.bind (beside_modifyHead (B := Coding live) fun f h h' hk =>
    hk.setTl (by rw [hk.twin.tl])) fun _ => Rel.ite Iff.rfl (fun hCode => hFail hCode) fun _ => ?_
  refine Agrees.bind (beside_modifyHead (B := Coding live) fun f h h' hk =>
    hk.setTd (by rw [hk.twin.td])) fun _ => Rel.ite Iff.rfl (fun hCode => ?_) fun _ => ?_
  · exact Agrees.bind (beside_modifyHead (B := fun _ => Left live) fun f h h' hk =>
      hk.twin.toLeft.dropTables) fun _ => beside_ret (by omega) fun _ _ _ h => h
  · refine beside_get' fun s head length hHead => ?_
    have htl : head.tl = s.head.tl := hHead.twin.tl
    have htd : head.td = s.head.td := hHead.twin.td
    dsimp only
    rw [htl, htd]
    cases s.head.tl with
    | none => exact hFail (by decide)
    | some tl =>
      cases s.head.td with
      | none => exact hFail (by decide)
      | some td => exact codesThenMatch_beside hWait tl td _ _

omit hWait in
theorem buildTables_beside :
    Agrees (Beside fun f h h' => f = 0 ∧ Counted live n n h h') (buildTables env)
      (buildTables env)
      (fun _ => Beside fun f h h' => Coding live f h h' ∧ h.t = 2) (Leave live) := by
  have hDrop : ∀ {A : Nat → Head → Head → Prop},
    (∀ f h h', A f h h' → Left live h h') →
      Agrees (Beside A) dropTables dropTables (fun _ => Beside fun _ => Left live) (Leave live) :=
    fun hA => beside_modifyHead fun f h h' hk => (hA f h h' hk).dropTables
  refine Agrees.bind (beside_modifyHead (B := fun f h h' => f = 0 ∧ Counted live n n h h')
    fun f h h' hk => ⟨hk.1, hk.2.dropTables⟩) fun _ =>
    Agrees.bind (Q := fun _ => Beside fun f h h' => f = 0 ∧ Counted live n n h h')
      (Agrees.modify fun s t hst => ?_) fun _ => ?_
  · obtain ⟨head, length, rfl, hFlag, hc⟩ := hst
    exact ⟨{ head with bb := s.bb, bk := s.bk }, length, rfl, hFlag, hc.saveBits s.bb s.bk⟩
  · refine beside_get' fun s head length hHead => ?_
    obtain ⟨-, hc⟩ := hHead
    have hn := hc.body.kind.2
    have hnl : head.nl = s.head.nl := hc.body.saved.nl (by decide) hc.body.kind.1
    have hnd : head.nd = s.head.nd := hc.body.saved.nd (by decide) hc.body.kind.1
    have hLits : (List.range s.head.nl).map head.ll = (List.range s.head.nl).map s.head.ll :=
      List.map_congr_left fun i hi => hc.ll i (by have := List.mem_range.mp hi; omega)
    have hDists : (List.range' s.head.nl s.head.nd).map head.ll =
        (List.range' s.head.nl s.head.nd).map s.head.ll :=
      List.map_congr_left fun i hi => hc.ll i (by have := List.mem_range'_1.mp hi; omega)
    dsimp only
    rw [hnl, hnd, hLits, hDists]
    generalize huftBuild env.stale ((List.range s.head.nl).map s.head.ll) 257 _ _ _ = lits
    generalize huftBuild env.stale ((List.range' s.head.nl s.head.nd).map s.head.ll) 0 _ _ _ = dists
    refine Agrees.bind (beside_modifyHead (B := fun f h h' => f = 0 ∧ Counted live n n h h')
      fun f h h' hk => ⟨hk.1, hk.2.setTl (by rw [hk.2.body.twin.tl])⟩) fun _ =>
      Rel.ite Iff.rfl (fun hCode => ?_) fun _ => ?_
    · exact Agrees.bind (Q := fun _ => Beside fun _ => Left live) (agrees_onlyIf Iff.rfl (fun _ =>
        hDrop fun f h h' hk => hk.2.body.twin.toLeft) fun _ _ _ hst =>
        hst.mono fun _ _ _ hk => hk.2.body.twin.toLeft) fun _ => beside_ret hCode fun _ _ _ h => h
    · refine Agrees.bind (beside_modifyHead (B := fun f h h' => f = 0 ∧ Counted live n n h h')
        fun f h h' hk => ⟨hk.1, hk.2.setTd (by rw [hk.2.body.twin.td])⟩) fun _ =>
        Rel.ite Iff.rfl (fun hCode => ?_) fun _ => beside_modifyHead fun f h h' hk => ?_
      · exact Agrees.bind (hDrop fun f h h' hk => hk.2.body.twin.toLeft) fun _ =>
          beside_ret hCode fun _ _ _ h => h
      · obtain ⟨rfl, hBody, hStale, -⟩ := hk
        have hs := hBody.saved
        refine ⟨⟨{ hBody.twin with kept := fun _ => { hStale with } },
          ?_, by rw [hBody.kind.1]; decide,
          Or.inl rfl, Local.early (by decide) _ _⟩, hBody.kind.1⟩
        exact ⟨fun _ => hs.e (by decide), fun _ => hs.t (by decide), fun _ => hs.nl (by decide),
          fun _ => hs.nd (by decide), fun _ => hs.nb (by decide), fun _ _ => rfl,
          fun _ => hs.ll (by decide), fun _ _ => rfl⟩

omit hWait in
theorem fromFlag_skip {α : Type} {f p : Nat} {A : Head → Head → Prop} (hf : f ≠ 0)
    (hp : f ≠ p) {a : α} {x y : Code α} :
    Agrees (AtFlag f A) (fromFlag p a x) (fromFlag p a y) (fun _ => AtFlag f A) (Leave live) := by
  refine beside_get' fun s head length hHead => ?_
  obtain ⟨hFlag, -⟩ := hHead
  have hSkip : ¬(s.flag = 0 ∨ s.flag = p) := fun h => by omega
  refine agrees_onlyIf Iff.rfl (fun h => absurd h hSkip) fun _ _ _ hst => hst

theorem dynamicCodes_beside :
    Agrees (Beside (Tabled live)) (dynamicCodes env) (dynamicCodes env) (BlockEnd live)
      (Leave live) := by
  refine beside_get fun u head' length' hHead' => ?_
  have hnl : head'.nl = u.head.nl := hHead'.1.saved.nl (by omega) hHead'.1.kind
  have hnd : head'.nd = u.head.nd := hHead'.1.saved.nd (by omega) hHead'.1.kind
  have hbl : head'.bl = u.head.bl := hHead'.1.saved.bl (by omega) hHead'.1.kind
  dsimp only
  rw [hnl, hnd, hbl]
  refine Agrees.bind (Q := fun _ => Beside fun f h h' =>
    f = 0 ∧ Counted live (u.head.nl + u.head.nd) (u.head.nl + u.head.nd) h h' ∨
      9 ≤ f ∧ Coding live f h h' ∧ h.t = 2) ?_ fun _ => ?_
  · refine agrees_onlyIf Iff.rfl (fun hOwn => ?_) fun hOther _ _ hst =>
      hst.mono fun f h h' hk => ?_
    · refine (codeLengths_beside hWait u.head.bl _ 0 0 (Nat.le_of_eq (Nat.zero_add _).symm)).conseq
        (fun _ _ hst => hst.mono fun f h h' hk => ?_) (fun _ _ _ hst =>
          hst.mono fun _ _ _ => Or.inl)
        fun _ _ _ h => h
      obtain ⟨⟨hs, hStale⟩, rfl, rfl, rfl⟩ := hk
      exact hs.counted (hStale (by omega)) hOwn
    · obtain ⟨⟨hs, -⟩, rfl, rfl, rfl⟩ := hk
      have hFlag : 9 ≤ u.flag := by have := hs.reached; omega
      exact Or.inr
        ⟨hFlag, ⟨hs.twin, hs.saved.mono (by omega), by rw [hs.kind]; decide, Or.inr hFlag,
        hs.local_⟩, hs.kind⟩
  · refine beside_get fun w head' length' hHead' => Agrees.bind
      (Q := fun _ => Beside fun f h h' => Coding live f h h' ∧ h.t = 2) (agrees_onlyIf Iff.rfl
      (fun hLow => ?_) fun hHigh _ _ hst => hst.mono fun f h h' hk => ?_) fun _ =>
      beside_get' fun x head' length' hHead' => ?_
    · refine (buildTables_beside (n := u.head.nl + u.head.nd)).conseq
        (fun _ _ hst => hst.mono fun f h h' hk => ?_) (fun _ _ _ h => h) fun _ _ _ h => h
      obtain ⟨hk, rfl, -⟩ := hk
      exact hk.resolve_right fun h => absurd h.1 (Nat.not_le.mpr hLow)
    · obtain ⟨hk, rfl, -⟩ := hk
      exact (hk.resolve_left fun h => hHigh (by rw [h.1]; decide)).2
    · obtain ⟨hc, hType⟩ := hHead'
      have hbl : head'.bl = x.head.bl := hc.saved.bl (by decide) hType
      have hbd : head'.bd = x.head.bd := hc.saved.bd (by decide) hType
      dsimp only
      rw [hbl, hbd, hc.twin.tl, hc.twin.td]
      have hFail : Agrees (Beside fun f h h' => Coding live f h h' ∧ h.t = 2) (ret 1 : Code Nat)
          (ret 1) (BlockEnd live) (Leave live) := beside_ret (by decide) fun _ _ _ h =>
            h.1.twin.toLeft
      cases x.head.tl with
      | none => exact hFail
      | some tl =>
        cases x.head.td with
        | none => exact hFail
        | some td =>
          exact (codesThenMatch_beside hWait tl td _ _).conseq
            (fun _ _ hst => hst.mono fun _ _ _ h => h.1) (fun _ _ _ h => h) fun _ _ _ h => h

theorem inflateDynamic_late {f : Nat} (hf : 9 ≤ f) (j j' : Nat) :
    Agrees (AtFlag f fun h h' => Stage live 3 Resumes f h h' ∧ h.t = 2)
      (inflateLengths env j) (inflateLengths env j') (BlockEnd live) (Leave live) := by
  refine Agrees.bind (fromFlag_skip (by omega) (by omega)) fun _ =>
    Agrees.bind (fromFlag_skip (by omega) (by omega)) fun _ =>
    Agrees.bind (fromFlag_skip (by omega) (by omega)) fun _ =>
    beside_get' fun u head length hHead => ?_
  obtain ⟨-, hs, hType⟩ := hHead
  have hnl : head.nl = u.head.nl := hs.saved.nl (by omega) hType
  have hnd : head.nd = u.head.nd := hs.saved.nd (by omega) hType
  dsimp only
  rw [hnl, hnd]
  refine Rel.ite Iff.rfl (fun _ => beside_ret (by decide) fun _ _ _ h =>
    h.2.1.twin.toLeft) fun _ => ?_
  refine Agrees.bind (Q := fun _ => Beside (Tabled live)) ?_ fun _ => dynamicCodes_beside hWait
  refine beside_get' fun w _ _ _ => Agrees.bind (fromFlag_skip (by omega) (by omega)) fun _ =>
    beside_get' fun x _ _ hHead => Rel.ite Iff.rfl (fun hZero => ?_) fun _ =>
    Agrees.pure fun _ _ hst => hst.mono fun k h h' hk => ?_
  · exact absurd (hHead.1.symm.trans hZero) (by omega)
  · obtain ⟨rfl, hs, hType⟩ := hk
    refine ⟨⟨hs.twin, hs.saved.mono (by omega), hs.local_, Or.inr (by omega), ?_, hType⟩,
      fun h8 => by omega⟩
    exact hs.earlier.imp_left fun h => by omega

theorem inflateDynamic_beside :
    Agrees (Beside fun f h h' => Stage live 3 Resumes f h h' ∧ h.t = 2)
      (inflateDynamic env) (inflateDynamic env) (BlockEnd live) (Leave live) := by
  refine agrees_blockEnd' (beside_get fun s head length hHead => ?_)
  by_cases hLate : 9 ≤ s.flag
  · refine (inflateDynamic_late hWait hLate _ _).conseq (fun _ _ hst =>
      hst.mono fun f h h' hk => ?_)
      (fun _ _ _ h => h) fun _ _ _ h => h
    obtain ⟨hk, rfl, -⟩ := hk
    exact ⟨rfl, hk⟩
  · generalize hLocal : (if s.flag = 0 then 0 else s.head.j) = j
    have hStale : s.flag ≠ 0 → Stale s.head head := by
      intro hFlag
      by_cases h6 : 6 ≤ s.flag
      · exact hHead.1.local_.stale h6 (by omega)
      · have h3 := hHead.1.reached
        have hSame := hHead.1.earlier
        exact hHead.1.kind (by omega) (by omega)
    have hLocal' : (if s.flag = 0 then 0 else head.j) = j := by
      by_cases hFlag : s.flag = 0
      · rw [← hLocal, if_pos hFlag, if_pos hFlag]
      · rw [← hLocal, if_neg hFlag, if_neg hFlag, (hStale hFlag).j]
    dsimp only
    rw [hLocal']
    refine Agrees.conseq (R := Beside (Stage live 3 (Dynamic j))) ?_ (fun _ _ hst => hst.mono
      fun f h h' hk => ?_) (fun _ _ _ h => h) fun _ _ _ h => h
    · refine Agrees.bind (readField_beside hWait (by decide) (by decide) (kind_dynamic j 3) 5
        fun x h h' hb => hb.nl (257 + x)) fun _ => Agrees.bind (readField_beside hWait (by decide)
        (by decide) (kind_dynamic j 4) 5 fun x h h' hb => hb.nd (1 + x)) fun _ =>
        Agrees.bind (readField_beside hWait (by decide) (by decide) (kind_dynamic j 5) 4
        fun x h h' hb => hb.nb (4 + x)) fun _ => beside_get' fun u head' length' hHead' => ?_
      have hnl : head'.nl = u.head.nl := hHead'.saved.nl (by omega) hHead'.kind.1
      have hnd : head'.nd = u.head.nd := hHead'.saved.nd (by omega) hHead'.kind.1
      dsimp only
      rw [hnl, hnd]
      refine Rel.ite Iff.rfl (fun _ => beside_ret (by decide) fun _ _ _ h =>
        h.twin.toLeft) fun _ => ?_
      exact Agrees.bind (buildBitLengths_beside hWait j) fun _ => dynamicCodes_beside hWait
    · obtain ⟨⟨hs, hType⟩, rfl, rfl, rfl⟩ := hk
      refine { hs with kind := ⟨hType, ?_⟩ }
      by_cases hFlag : s.flag = 0
      · rw [if_pos hFlag] at hLocal
        exact Or.inl hLocal.symm
      · rw [if_neg hFlag] at hLocal
        exact Or.inr ⟨hLocal, hStale hFlag⟩

theorem storedLoop_beside (n : Nat) :
    Agrees (Beside fun f h h' => (f = 0 ∨ 15 ≤ f) ∧ Storing live f h h') (storedLoop env n)
      (storedLoop env n) (fun _ => Beside fun f h h' => (f = 0 ∨ 15 ≤ f) ∧
      Storing live f h h') (Leave live) := by
  induction n with
  | zero => exact Agrees.pure fun _ _ hst => hst
  | succ n ih =>
    refine Agrees.bind (beside_setFlag (B := fun f h h' => f = 17 ∧ Storing live 0 h h')
      fun f h h' hk => ⟨rfl, hk.2.setFlag (by decide)⟩) fun _ => Agrees.bind (beside_modifyHead
      (B := fun f h h' => f = 17 ∧ Storing live 17 h h') fun f h h' hk =>
        ⟨hk.1, ?_⟩) fun _ => ?_
    · exact ⟨{ hk.2.twin with kept := fun hLive => { hk.2.twin.kept hLive with } },
        hk.2.e, hk.2.t, hk.2.type, hk.2.flag, fun _ => rfl⟩
    · refine Agrees.bind
        (needBits_beside hWait (by decide) (Storing.keepable (by decide)) 8 env.fuel)
        fun _ => Agrees.bind (beside_setFlag
          (B := fun f h h' => (f = 0 ∨ 15 ≤ f) ∧ Storing live f h h') fun f h h' hk =>
          ⟨Or.inl rfl, hk.2.setFlag (by decide)⟩) fun _ => ?_
      exact Agrees.bind (beside_dumpBits 8) fun _ => ih

theorem inflateStored_beside :
    Agrees (Beside fun f h h' => Stage live 3 Resumes f h h' ∧ h.t = 0)
      (inflateStored env)
      (inflateStored env) (BlockEnd live) (Leave live) := by
  refine agrees_blockEnd' (Agrees.conseq (R := Beside fun f h h' =>
    (f = 0 ∨ 15 ≤ f) ∧ Storing live f h h') ?_ (fun _ _ hst => hst.mono fun f h h' hk =>
    hk.1.storing hk.2) (fun _ _ _ h => h) fun _ _ _ h => h)
  refine beside_get' fun s head length hHead => ?_
  have hValue : (if s.flag = 17 then head.n else env.stale) =
      if s.flag = 17 then s.head.n else env.stale := by
    by_cases hFlag : s.flag = 17
    · rw [if_pos hFlag, if_pos hFlag, hHead.2.n (Or.inl hFlag)]
    · rw [if_neg hFlag, if_neg hFlag]
  dsimp only
  rw [hValue]
  refine Agrees.bind (agrees_onlyIf Iff.rfl (fun _ => beside_dumpBits _) fun _ _ _ hst => hst)
    fun _ => Agrees.bind (Q := fun _ => Beside fun f h h' => (f = 0 ∨ 15 ≤ f) ∧
      Storing live f h h')
    (beside_get' fun s _ _ _ => agrees_onlyIf Iff.rfl (fun _ => ?_) fun _ _ _ hst =>
      hst) fun n => ?_
  · refine Agrees.bind (beside_setFlag (B := fun f h h' => f = 15 ∧ Storing live 15 h h')
      fun f h h' hk => ⟨rfl, hk.2.setFlag (by decide)⟩) fun _ =>
      Agrees.bind (needBits_beside hWait (by decide) (Storing.keepable (by decide)) 16 env.fuel)
      fun _ =>
        Agrees.bind
        (beside_setFlag (B := fun f h h' => (f = 0 ∨ 15 ≤ f) ∧ Storing live f h h')
      fun f h h' hk => ⟨Or.inl rfl, hk.2.setFlag (by decide)⟩) fun _ => beside_bits fun b => ?_
    exact Agrees.bind (beside_dumpBits 16) fun _ => Agrees.pure fun _ _ hst => hst
  refine Agrees.bind (Q := fun _ => Beside fun f h h' => (f = 0 ∨ 15 ≤ f) ∧
    Storing live f h h')
    (beside_get' fun s _ _ _ => agrees_onlyIf Iff.rfl (fun _ => ?_) fun _ _ _ hst =>
      hst) fun _ => ?_
  · refine Agrees.bind (beside_setFlag (B := fun f h h' => f = 16 ∧ Storing live 16 h h')
      fun f h h' hk => ⟨rfl, hk.2.setFlag (by decide)⟩) fun _ =>
      Agrees.bind (needBits_beside hWait (by decide) (Storing.keepable (by decide)) 16 env.fuel)
      fun _ =>
        Agrees.bind
        (beside_setFlag (B := fun f h h' => (f = 0 ∨ 15 ≤ f) ∧ Storing live f h h')
      fun f h h' hk => ⟨Or.inl rfl, hk.2.setFlag (by decide)⟩) fun _ => beside_bits fun b => ?_
    exact Rel.ite Iff.rfl (fun _ => beside_ret (by decide) fun _ _ _ h => h.2.twin.toLeft)
      fun _ => beside_dumpBits 16
  refine Agrees.bind (Q := fun _ => Beside fun f h h' => (f = 0 ∨ 15 ≤ f) ∧
    Storing live f h h')
    (beside_get' fun s _ _ _ => agrees_onlyIf Iff.rfl (fun _ => storedLoop_beside hWait n)
    fun _ _ _ hst => hst) fun _ => Agrees.bind (Q := fun _ => Beside (Done live))
    (Agrees.modify fun u v huv => ?_) fun _ => Agrees.pure fun _ _ hst => Done.blockEnd hst
  obtain ⟨head', length', rfl, hFlag, hs⟩ := huv
  have hTwin : Twin live { u.head with bb := u.bb, bk := u.bk }
    { head' with bb := u.bb, bk := u.bk } :=
    { hs.twin with kept := fun hLive => { hs.twin.kept hLive with }, bits := fun _ =>
      ⟨rfl, rfl⟩ }
  have hStoring : Storing live u.flag { u.head with bb := u.bb, bk := u.bk }
      { head' with bb := u.bb, bk := u.bk } :=
    ⟨hTwin, hs.e, hs.t, hs.type, hs.flag, hs.n⟩
  refine ⟨{ head' with bb := u.bb, bk := u.bk }, length', rfl, ?_, fun _ =>
    ⟨hTwin, ?_, hs.e, ?_⟩,
    fun _ => hFlag.imp_right fun h => Nat.le_trans (by decide) h⟩
  · exact hTwin.ready hStoring.saved (hStoring.local_ hs.flag fun h => hs.n (Or.inr h))
  · exact hStoring.saved
  · exact hStoring.local_ (hFlag.imp_left fun h => h.trans_lt (by decide : 0 < 3))
      fun h => hs.n (Or.inl h)

theorem inflateType_beside (t : Nat) :
    Agrees (Beside fun f h h' => Stage live 3 Resumes f h h' ∧ h.t = t)
      (inflateType env t)
      (inflateType env t) (BlockEnd live) (Leave live) := by
  refine Rel.ite Iff.rfl (fun ht => ?_) fun _ => Rel.ite Iff.rfl (fun ht => ?_) fun _ =>
    Rel.ite Iff.rfl (fun ht => ?_) fun _ => ?_
  · subst ht
    exact inflateDynamic_beside hWait
  · subst ht
    exact inflateStored_beside hWait
  · subst ht
    exact inflateFixed_beside hWait
  · exact Agrees.pure fun _ _ hst =>
      blockEnd_of_ne (by decide) (hst.mono fun _ _ _ hk => hk.1.twin.toLeft)

theorem inflateBlock_beside :
    Agrees (Beside (Stage live 1 Resumes)) (inflateBlock env) (inflateBlock env)
      (BlockEnd live) fun e _ _ => e = .spin := by
  refine agrees_blockEnd (Agrees.bind (readField_beside hWait (by decide) (by decide)
    (kind_resumes (by decide)) 1 fun x h h' hb => hb.e x) fun _ =>
      Agrees.bind (readField_beside hWait
    (by decide) (by decide) (kind_resumes (by decide)) 2 fun x h h' hb => hb.t x) fun _ =>
    beside_get fun s head length hHead => ?_)
  have ht : head.t = s.head.t := hHead.saved.t (by omega)
  dsimp only
  rw [ht]
  exact (inflateType_beside hWait s.head.t).conseq (fun _ _ hst => hst.mono fun f h h' hk =>
    ⟨hk.1, by rw [hk.2.2.1]⟩) (fun _ _ _ h => h) fun _ _ _ h => h

/-- What `inflate` returns, and the heads behind it. -/
def InflateEnd (live : Prop) (r : Nat) (s t : State) : Prop :=
  (r = 0 → Beside (fun _ => Ready live) s t) ∧ Beside (fun _ => Left live) s t

omit hWait in
theorem Done.stage {f : Nat} {h h' : Head} (hd : Done live f h h') (hFlag : h.flag = 0) :
    Stage live 1 Resumes f h h' where
  twin := (hd.next hFlag).1
  saved := by
    obtain ⟨-, hs, -, -⟩ := hd.next hFlag
    by_cases hf : f = 0
    · subst hf
      exact Saved.start h h' (by decide)
    · rw [Nat.max_eq_right (by omega)]
      exact hs
  local_ := (hd.next hFlag).2.2.2
  reached := by omega
  earlier := Or.inl ⟨by omega, hd.reached hFlag⟩
  kind h3 := by omega

theorem blocksLoop_beside (fuel : Nat) :
    Agrees (Beside (Stage live 1 Resumes)) (blocksLoop env fuel) (blocksLoop env fuel)
      (InflateEnd live) fun e _ _ => e = .spin := by
  induction fuel with
  | zero => exact Agrees.throw fun _ _ _ => rfl
  | succ fuel ih =>
    refine Agrees.bind (inflateBlock_beside hWait) fun r => Rel.get_bind_eq fun s t hst => ?_
    by_cases hr : r = 0
    · obtain ⟨head, length, rfl, hDone⟩ := hst.1 hr
      refine Rel.ite Iff.rfl (fun h => absurd hr h) fun _ =>
        Rel.ite ?_ (fun hMore => ?_) fun _ => ?_
      · show s.head.e = 0 ∧ s.head.flag = 0 ↔ head.e = 0 ∧ head.flag = 0
        rw [hDone.ready.flag]
        refine and_congr_left fun hFlag => ?_
        rw [(hDone.next hFlag).2.2.1]
      · refine ih.conseq (fun s' t' h => ?_) (fun _ _ _ h => h) fun _ _ _ h => h
        obtain ⟨rfl, rfl⟩ := h
        exact ⟨head, length, rfl, hDone.stage hMore.2⟩
      · refine Agrees.pure fun s' t' h => ?_
        obtain ⟨rfl, rfl⟩ := h
        exact ⟨fun _ => ⟨head, length, rfl, hDone.ready⟩, hst.2⟩
    · refine Rel.ite Iff.rfl (fun _ => Agrees.pure fun s' t' h => ?_) fun h => absurd hr h
      obtain ⟨rfl, rfl⟩ := h
      exact ⟨fun h => absurd h hr, hst.2⟩

/-- A call of `inflate`. -/
theorem inflate_beside :
    Agrees (Beside fun _ h h' => Ready live h h' ∧ Resumes h h') (inflate env) (inflate env)
      (InflateEnd live) fun e _ _ => e = .spin := by
  refine Agrees.bind (Q := fun _ => Beside (Stage live 1 Resumes))
    (Agrees.modify fun s t hst => ?_) fun _ => blocksLoop_beside hWait env.fuel
  obtain ⟨head, length, rfl, ⟨hLeft, hSame⟩, hResumes⟩ := hst
  have hFlag : head.flag = s.head.flag := hSame.flag
  by_cases hZero : s.head.flag = 0
  · rw [if_neg (fun h => h hZero), if_neg (fun h => h (hFlag.trans hZero))]
    refine ⟨{ head with tl := none, td := none, tt := none }, 0, rfl, ?_,
      Saved.start _ _ Nat.one_lt_two, Local.early (Nat.succ_pos 2) _ _, Or.inl rfl,
      Or.inr hZero, fun h3 => absurd h3 (by rw [hZero]; decide)⟩
    exact {
      kept := fun hLive => { hLeft.kept hLive with }
      flag := hSame.flag, bits := fun h => absurd hZero h, tl := rfl, td := rfl, tt := rfl }
  · obtain ⟨htl, htd, htt⟩ := hSame.tables hZero
    obtain ⟨hbb, hbk⟩ := hSame.bits hZero
    rw [if_pos hZero, if_pos fun h => hZero (hFlag.symm.trans h), hFlag, hbb, hbk]
    refine ⟨head, length, rfl, ?_, ?_, hSame.local_, by omega, Or.inr rfl, hResumes⟩
    · exact { hSame with kept := hLeft.kept, tl := htl, td := htd, tt := htt }
    · show Saved (max 1 s.head.flag) _ _
      rw [Nat.max_eq_right (by omega)]
      exact hSame.saved

end Inflate

end Shutter.Gunzip
