import Shutter.Gunzip.Twin.Heads

/-! Two runs of the parts of `inflate_dynamic` that read the numbers and the code lengths. -/

namespace Shutter.Gunzip

open Shutter.Library

section Lengths

variable {live : Prop} {kind : Head → Head → Prop} {nb n : Nat} {env : Env}
  (hWait : env.Blind)
include hWait

theorem needBits_beside {f : Nat} {A : Head → Head → Prop} (hf : f ≠ 0)
    (hA : Keepable live f A) (n fuel : Nat) : Agrees (AtFlag f A) (needBits env n fuel)
    (needBits env n fuel)
      (fun _ => AtFlag f A) (Leave live) := by
  induction fuel with
  | zero => exact beside_spin
  | succ fuel ih =>
    refine beside_get fun s head length hHead => Rel.ite Iff.rfl (fun _ => Rel.ite Iff.rfl
      (fun _ => ?_) fun _ => ?_) fun _ => Agrees.pure fun _ _ hst => hst.mono fun _ _ _ h => h.1
    · refine Agrees.bind (Q := fun _ => AtFlag f A) ⟨fun _ _ _ => ?_⟩ fun _ => ih
      exact ⟨rfl, head, length, rfl, hHead⟩
    · refine Agrees.bind (Q := fun _ => Beside fun k h h' =>
        (k = f ∧ A h h') ∧ Ready live h h' ∧ h.flag = f)
          (beside_modifyHead fun k h h' hk => ?_)
        fun _ => ?_
      · obtain rfl : s.flag = f := hHead.1
        exact ⟨⟨hk.1.1, hA.save h h' s.bb s.bk hk.1.2⟩, hA.ready hk.1.2 s.bb s.bk, rfl⟩
      · refine Agrees.bind ((hWait _).conseq (fun _ _ h => h) (fun _ _ _ h => h)
          fun _ _ _ h => h.elim) fun _ => beside_get' fun u head length hHead => ?_
        refine Agrees.bind (Q := fun _ => AtFlag f A) (agrees_onlyIf Iff.rfl (fun _ => ?_)
          fun _ _ _ hst => hst.mono fun _ _ _ h => h.1) fun _ => ih
        refine Agrees.bind (beside_modify (fun _ _ _ => rfl) (fun _ => rfl) fun _ => rfl) fun _ =>
          Agrees.bind (beside_record _) fun _ => Agrees.throw fun s' t' hst => ?_
        refine ⟨fun _ => hst.mono fun _ _ _ hk => ⟨hk.2.1, hk.2.2 ▸ hf⟩, fun _ _ => ?_⟩
        exact hst.mono fun _ _ _ hk => hk.2.1.toLeft

theorem readField_beside {p : Nat} (hp : p ≠ 0) (hLast : p ≤ 5) (hKind : Kind p kind) (n : Nat)
    {store : Nat → Head → Head} (hStore : ∀ x h h', Body live p kind h h' →
      Body live p kind (store x h) (store x h') ∧ Saved (p + 1) (store x h) (store x h')) :
    Agrees (Beside (Stage live p kind)) (readField env p n store) (readField env p n store)
      (fun _ => Beside (Stage live (p + 1) kind)) (Leave live) := by
  refine beside_get fun s head length hHead =>
    agrees_onlyIf Iff.rfl (fun hOwn => ?_) fun hOther => ?_
  · refine Agrees.bind (beside_setFlag (B := fun k h h' => k = p ∧ Body live p kind h h')
      fun k h h' hk => ⟨rfl, hk.1.body (hk.2.1 ▸ hOwn)⟩) fun _ => ?_
    refine Agrees.bind (needBits_beside hWait hp (Body.keepable (by omega) hKind) n env.fuel)
      fun _ => Agrees.bind (beside_setFlag (B := fun k h h' => k = 0 ∧ Body live p kind h h')
        fun k h h' hk => ⟨rfl, hk.2⟩) fun _ => beside_bits fun x => ?_
    refine Agrees.bind (beside_modifyHead (B := Stage live (p + 1) kind) fun k h h' hk =>
      ?_) fun _ =>
      beside_dumpBits n
    obtain ⟨rfl, hb⟩ := hk
    exact (hStore x h h' hb).1.stage (hStore x h h' hb).2
  · exact fun _ _ hst => hst.mono fun k h h' hk => hk.1.skip (hk.2.1 ▸ hOther)

theorem bitLengths_beside {k : Nat} (hk : k ≤ nb) :
    Agrees (Beside fun f h h' => (f = 0 ∨ f = 6 ∧ k ≠ 0) ∧ Lengths live nb (nb - k) h h')
      (bitLengths env nb k) (bitLengths env nb k)
      (fun _ => Beside fun f h h' => f = 0 ∧ Lengths live nb nb h h') (Leave live) := by
  induction k with
  | zero =>
    exact Agrees.pure fun _ _ hst => hst.mono fun f h h' hf =>
      ⟨hf.1.resolve_right fun h => h.2 rfl, hf.2⟩
  | succ k ih =>
    refine Agrees.bind
      (beside_setFlag (B := fun f h h' => f = 6 ∧ Lengths live nb (nb - (k + 1)) h h')
      fun f h h' hf => ⟨rfl, hf.2⟩) fun _ => Agrees.bind (beside_modifyHead (B := fun f h h' =>
      f = 6 ∧ (Lengths live nb (nb - (k + 1)) h h' ∧ Stale h h') ∧ h.j = nb - (k + 1))
      fun f h h' hf => ⟨hf.1, hf.2.setJ, rfl⟩) fun _ => ?_
    refine Agrees.bind (needBits_beside hWait (by decide) (Lengths.keepable (by omega)) 3 env.fuel)
      fun _ => Agrees.bind (beside_setFlag
        (B := fun f h h' => f = 0 ∧ Lengths live nb (nb - (k + 1)) h h') fun f h h' hf =>
          ⟨rfl, hf.2.1.1⟩)
      fun _ => beside_bits fun x => ?_
    refine Agrees.bind
      (beside_modifyHead (B := fun f h h' => f = 0 ∧ Lengths live nb (nb - k) h h')
      fun f h h' hf => ⟨hf.1, (hf.2.setLength x).mono (by omega)⟩) fun _ =>
      Agrees.bind (beside_dumpBits 3) fun _ => ?_
    exact (ih (Nat.le_of_succ_le hk)).conseq
      (fun _ _ hst => hst.mono fun f h h' hf => ⟨Or.inl hf.1, hf.2⟩) (fun _ _ _ hst => hst)
      fun _ _ _ hst => hst

omit hWait in
theorem clearBitLengths_beside (j n : Nat) :
    Agrees (Beside fun f h h' => f = 0 ∧ Lengths live nb j h h')
      (clearBitLengths (List.range' j n))
      (clearBitLengths (List.range' j n))
      (fun _ => Beside fun f h h' => f = 0 ∧ Lengths live nb (j + n) h h') (Leave live) := by
  induction n generalizing j with
  | zero => exact Agrees.pure fun _ _ hst => hst
  | succ n ih =>
    rw [List.range'_succ]
    refine Agrees.bind
      (beside_modifyHead (B := fun f h h' => f = 0 ∧ Lengths live nb (j + 1) h h')
      fun f h h' hf => ⟨hf.1, hf.2.setLength 0⟩) fun _ => ?_
    exact (ih (j + 1)).conseq (fun _ _ hst => hst)
      (fun _ _ _ hst => hst.mono fun f h h' hf => ⟨hf.1, hf.2.mono (by omega)⟩)
        fun _ _ _ hst => hst

theorem bitLengths_beside' (j : Nat) :
    Agrees (Beside fun f h h' => (f = 0 ∨ f = 6 ∧ nb - j ≠ 0) ∧ Lengths live nb j h h')
      (bitLengths env nb (nb - j)) (bitLengths env nb (nb - j))
      (fun _ => Beside fun f h h' => f = 0 ∧ Lengths live nb (max j nb) h h') (Leave live) := by
  by_cases hj : j ≤ nb
  · rw [Nat.max_eq_right hj]
    refine (bitLengths_beside hWait (Nat.sub_le nb j)).conseq (fun _ _ hst => hst.mono
      fun f h h' hf => ⟨hf.1, ?_⟩) (fun _ _ _ h => h) fun _ _ _ h => h
    rw [Nat.sub_sub_self hj]
    exact hf.2
  · have hNone : nb - j = 0 := by omega
    rw [hNone, Nat.max_eq_left (by omega)]
    exact Agrees.pure fun _ _ hst => hst.mono fun f h h' hf =>
      ⟨hf.1.resolve_right fun h => h.2 rfl, hf.2⟩

omit hWait in
theorem bitTable_beside (lengths : Built) :
    Agrees (Beside fun f h h' => f = 0 ∧ Measured live h h' ∧ Stale h h') (do
      modifyHead fun h => { h with tl := lengths.t.getD h.tl }
      if lengths.code ≠ 0 then
        dropTables
        ret lengths.code
      else modifyHead fun h => { h with bl := lengths.m }) (do
      modifyHead fun h => { h with tl := lengths.t.getD h.tl }
      if lengths.code ≠ 0 then
        dropTables
        ret lengths.code
      else modifyHead fun h => { h with bl := lengths.m })
      (fun _ => Beside (Tabled live)) (Leave live) := by
  refine Agrees.bind
    (beside_modifyHead (B := fun f h h' => f = 0 ∧ Measured live h h' ∧ Stale h h')
    fun f h h' hf => ⟨hf.1, ?_, { hf.2.2 with }⟩) fun _ =>
      Rel.ite Iff.rfl (fun hCode => ?_) fun _ =>
    beside_modifyHead fun f h h' hf => ?_
  · exact ⟨{ hf.2.1.body with
      twin := { hf.2.1.body.twin with
        kept := fun _ => { hf.2.2 with }, tl := by rw [hf.2.1.body.twin.tl] }
      saved := { hf.2.1.body.saved with } }, hf.2.1.ll⟩
  · exact Agrees.bind (beside_modifyHead (B := fun _ => Left live) fun f h h' hf =>
      hf.2.1.body.twin.toLeft.dropTables) fun _ => beside_ret hCode fun _ _ _ h => h
  · obtain ⟨rfl, ⟨hBody, hll⟩, hStale⟩ := hf
    have hs := hBody.saved
    refine ⟨⟨{ hBody.twin with kept := fun _ => { hStale with } }, ?_,
      Local.early (by decide) _ _,
      Or.inl rfl, Or.inl ⟨Nat.lt_succ_of_le hBody.earlier, Or.inl rfl⟩, hBody.kind⟩, fun _ =>
        { hStale with }⟩
    refine ⟨fun _ => hs.e (by decide), fun _ => hs.t (by decide), fun _ => hs.nl (by decide),
      fun _ => hs.nd (by decide), fun _ => hs.nb (by decide), fun _ _ => rfl, fun _ _ => hll, ?_⟩
    exact fun h => absurd h (by decide)

theorem buildBitLengths_beside (j : Nat) :
    Agrees (Beside (Stage live 6 (Dynamic j))) (buildBitLengths env j) (buildBitLengths env j)
      (fun _ => Beside (Tabled live)) (Leave live) := by
  refine beside_get fun s head length hHead => ?_
  have hnb : head.nb = s.head.nb := hHead.saved.nb (Nat.le_max_left _ _) hHead.kind.1
  show Agrees _ _ (fromFlag 6 () (bitLengths env head.nb (head.nb - j) >>= fun _ =>
    clearBitLengths (List.range' (max j head.nb) (19 - max j head.nb)) >>= fun _ =>
    modifyHead fun h => { h with j := max j 19 }) >>= _) _ _
  rw [hnb]
  refine Agrees.bind (Q := fun _ => Beside fun f h h' =>
    f = 0 ∧ Measured live h h' ∧ Stale h h' ∨ f ≠ 0 ∧ Tabled live f h h') ?_ fun _ => ?_
  · refine beside_get fun u head' length' hHead' => agrees_onlyIf Iff.rfl (fun hOwn => ?_)
      fun hOther _ _ hst => hst.mono fun f h h' hf => ?_
    · refine Agrees.bind ((bitLengths_beside' hWait j).conseq (fun _ _ hst => hst.mono
        fun f h h' hf => ?_) (fun _ _ _ hst => hst) fun _ _ _ hst => hst) fun _ =>
        Agrees.bind (clearBitLengths_beside _ _) fun _ => beside_modifyHead fun f h h' hf => ?_
      · obtain ⟨⟨hStage, -, rfl, rfl⟩, rfl, -⟩ := hf
        exact hStage.lengths hOwn
      · exact Or.inl ⟨hf.1, ((hf.2.mono (by omega)).measured).setJ _⟩
    · obtain ⟨⟨hStage, -⟩, rfl, -⟩ := hf
      refine Or.inr ⟨fun h => hOther (Or.inl h),
        { hStage.skip hOther with kind := hStage.kind.1 },
        fun h8 => hStage.local_.stale ?_ h8⟩
      have := hStage.reached
      omega
  · refine beside_get fun u head' length' hHead' =>
      Rel.ite Iff.rfl (fun hZero => ?_) fun hOther => ?_
    · obtain ⟨hMeasured, hStale⟩ := (hHead'.resolve_right fun h => h.1 hZero).2
      have hTable : (List.range 19).map head'.ll = (List.range 19).map u.head.ll :=
        List.map_congr_left fun i hi => hMeasured.ll i (List.mem_range.mp hi)
      dsimp only
      rw [hTable]
      refine (bitTable_beside _).conseq (fun _ _ hst => hst.mono fun f h h' hf => ?_)
        (fun _ _ _ hst => hst) fun _ _ _ hst => hst
      obtain ⟨-, rfl, rfl, rfl⟩ := hf
      exact ⟨hZero, hMeasured, hStale⟩
    · refine Agrees.pure fun _ _ hst => hst.mono fun f h h' hf => ?_
      obtain ⟨hf, rfl, -⟩ := hf
      exact (hf.resolve_left fun h => hOther h.1).2

omit hWait in
theorem setLengths_beside {f : Nat} (i x count : Nat) :
    Agrees (AtFlag f (Counted live n i)) (setLengths i x count) (setLengths i x count)
      (fun _ => AtFlag f (Counted live n (i + count))) (Leave live) := by
  induction count generalizing i with
  | zero => exact Agrees.pure fun _ _ hst => hst
  | succ count ih =>
    refine Agrees.bind (beside_modifyHead (B := fun k h h' => k = f ∧ Counted live n (i + 1) h h')
      fun k h h' hk => ⟨hk.1, hk.2.setLength x⟩) fun _ => ?_
    rw [Nat.add_comm count 1, ← Nat.add_assoc]
    exact ih (i + 1)

theorem lengthCode_beside {i : Nat} (bl j : Nat) (hn : 0 < n) :
    Agrees (Beside fun f h h' => (f = 0 ∨ f = 7 ∨ f = 8) ∧ Counted live n i h h')
      (lengthCode env bl j)
      (lengthCode env bl j) (fun _ => Beside fun _ => Counted live n i) (Leave live) := by
  refine beside_get' fun s head length _ => agrees_onlyIf Iff.rfl (fun _ => ?_)
    fun _ _ _ hst => hst.mono fun _ _ _ h => h.2
  refine Agrees.bind (beside_setFlag (B := fun f h h' => f = 7 ∧ Counted live n i h h')
    fun f h h' hf => ⟨rfl, hf.2⟩) fun _ =>
    Agrees.bind (needBits_beside hWait (by decide) (Counted.keepable hn (Or.inl rfl)) bl env.fuel)
    fun _ => beside_get' fun u head' length' hHead' => ?_
  have htl : head'.tl = u.head.tl := hHead'.2.body.twin.tl
  dsimp only
  rw [htl]
  cases u.head.tl with
  | none => exact beside_ret (by decide) fun _ _ _ h => h.2.body.twin.toLeft
  | some tl =>
    refine beside_bits fun b => Agrees.bind (beside_modifyHead
      (B := fun f h h' => f = 7 ∧ Counted live n i h h') fun f h h' hf =>
        ⟨hf.1, hf.2.setTd rfl⟩) fun _ =>
      Agrees.bind (beside_dumpBits _) fun _ => Agrees.bind (beside_modifyHead
      (B := fun _ h h' => Counted live n i h h') fun f h h' hf => hf.2.setJ _) fun _ =>
      Agrees.pure fun _ _ hst => hst

theorem repeatLength_beside {i : Nat} (hn : 0 < n) (k base x : Nat) (hBase : 0 < base) :
    Agrees (AtFlag 8 (Counted live n i)) (repeatLength env n k base i x)
      (repeatLength env n k base i x)
      (fun next s t => i < next ∧ AtFlag 8 (Counted live n next) s t) (Leave live) := by
  refine Agrees.bind (needBits_beside hWait (by decide) (Counted.keepable hn (Or.inr rfl)) k
    env.fuel) fun _ => beside_bits fun b => Agrees.bind (beside_dumpBits k) fun _ =>
    Rel.ite Iff.rfl (fun _ => beside_ret (by decide) fun _ _ _ h =>
      h.2.body.twin.toLeft) fun _ => ?_
  exact Agrees.bind (setLengths_beside i x _) fun _ =>
    Agrees.pure fun _ _ hst => ⟨by omega, hst⟩

theorem lengthRun_beside {i : Nat} (hn : 0 < n) (l j : Nat) :
    Agrees (AtFlag 8 (Counted live n i)) (lengthRun env n i l j) (lengthRun env n i l j)
      (fun next s t => i < next.1 ∧ AtFlag 8 (Counted live n next.1) s t) (Leave live) := by
  refine Rel.ite Iff.rfl (fun _ => ?_) fun _ => Rel.ite Iff.rfl (fun _ => ?_) fun _ =>
    Rel.ite Iff.rfl (fun _ => ?_) fun _ => ?_
  · refine Agrees.bind
      (beside_modifyHead (B := fun f h h' => f = 8 ∧ Counted live n (i + 1) h h')
      fun f h h' hf => ⟨hf.1, hf.2.setLength j⟩) fun _ => Agrees.pure fun _ _ hst => ?_
    exact ⟨Nat.lt_succ_self i, hst⟩
  all_goals
    refine Agrees.bind (repeatLength_beside hWait hn _ _ _ (by decide)) fun _ => ?_
    exact Agrees.pure fun _ _ hst => hst

theorem codeLengths_beside (bl fuel i l : Nat) (hFuel : n ≤ i + fuel) :
    Agrees (Beside fun f h h' => (f = 0 ∨ (f = 7 ∨ f = 8) ∧ i < n) ∧ Counted live n i h h')
      (codeLengths env n bl fuel i l) (codeLengths env n bl fuel i l)
      (fun _ => Beside fun f h h' => f = 0 ∧ Counted live n n h h') (Leave live) := by
  have hDone : ∀ i, n ≤ i → ∀ s t,
    Beside (fun f h h' => (f = 0 ∨ (f = 7 ∨ f = 8) ∧ i < n) ∧
      Counted live n i h h') s t →
        Beside (fun f h h' => f = 0 ∧ Counted live n n h h') s t := by
    intro i hi s t hst
    refine hst.mono fun f h h' hf => ⟨hf.1.resolve_right fun h => ?_, hf.2.body, hf.2.stale,
      fun k hk => ?_⟩
    · exact absurd h.2 (Nat.not_lt.mpr hi)
    · exact hf.2.ll k (Nat.lt_of_lt_of_le hk hi)
  induction fuel generalizing i l with
  | zero => exact Agrees.pure (hDone i hFuel)
  | succ fuel ih =>
    refine Rel.ite Iff.rfl (fun hi => ?_) fun hi => Agrees.pure (hDone i (Nat.not_lt.mp hi))
    have hn : 0 < n := Nat.lt_of_le_of_lt (Nat.zero_le i) hi
    refine beside_get' fun s head length hHead => ?_
    have hj : head.j = s.head.j := hHead.2.stale.j
    dsimp only
    rw [hj]
    refine Agrees.bind ((lengthCode_beside hWait bl _ hn).conseq (fun _ _ hst => hst.mono
      fun f h h' hf => ⟨hf.1.imp_right fun h => h.1, hf.2⟩) (fun _ _ _ h => h) fun _ _ _ h => h)
      fun j => Agrees.bind (beside_setFlag (B := fun f h h' => f = 8 ∧ Counted live n i h h')
        fun f h h' hf => ⟨rfl, hf⟩) fun _ =>
          Agrees.bind (lengthRun_beside hWait hn l j) fun next => ?_
    refine Rel.of_states fun u v huv => ?_
    obtain ⟨hNext, huv⟩ := huv
    refine Rel.conseq ?_ (R := AtFlag 8 (Counted live n next.1)) (fun u' v' h => ?_)
      (fun _ _ _ _ h => h)
      fun _ _ _ _ h => h
    · refine Agrees.bind (beside_setFlag (B := fun f h h' => f = 0 ∧ Counted live n next.1 h h')
        fun f h h' hf => ⟨rfl, hf.2⟩) fun _ => Agrees.bind (beside_modifyHead
        (B := fun f h h' => (f = 0 ∨ (f = 7 ∨ f = 8) ∧ next.1 < n) ∧
          Counted live n next.1 h h')
        fun f h h' hf => ⟨Or.inl hf.1, hf.2.setJ _⟩) fun _ => ?_
      exact ih next.1 next.2 (by omega)
    · obtain ⟨rfl, rfl⟩ := h
      exact huv

end Lengths

end Shutter.Gunzip
