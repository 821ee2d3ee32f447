import Shutter.Gunzip.Inflate
import Shutter.Library.Exec

/-! An invariant rule for `inflate`: what the codes of a block keep, and what the bits of its header
do not touch, holds wherever the inflater stops. -/

namespace Shutter.Gunzip

open Shutter.Library

/-- A `return` in the body is the end of a call. -/
theorem triple_call {P S : State → Prop} {Q : Nat → State → Prop} {body : Code Nat}
    (h : Triple P body Q fun e s => (∀ r, e = .ret r → Q r s) ∧ (e = .spin → S s)) :
    Triple P (call body) Q fun e s => e = .spin ∧ S s := by
  refine ⟨fun s hs => ?_⟩
  have hEnds := h.ends s hs
  unfold call
  cases hRun : body s with
  | ok r s' =>
    rw [hRun] at hEnds
    exact hEnds
  | error e s' =>
    rw [hRun] at hEnds
    cases e with
    | ret r => exact hEnds.1 r rfl
    | spin => exact ⟨rfl, hEnds.2 rfl⟩

section Rules

variable {P E : State → Prop} {α β : Type}

/-- The program ends in a state of `P`, or returns from the function in one of `E`, and with 0 in
one of `P`. -/
abbrev Within (P E : State → Prop) (x : Code α) : Prop :=
  Triple P x (fun _ => P) fun e s => (e = .ret 0 → P s) ∧ E s

/-- The program ends with 0 in a state of `P`, and else in one of `E`. -/
abbrev Returns (P E : State → Prop) (x : Code Nat) : Prop :=
  Triple P x (fun r s => (r = 0 → P s) ∧ E s) fun e s => (e = .ret 0 → P s) ∧ E s

theorem Within.pure (a : α) : Within P E (Pure.pure a : Code α) := Triple.pure fun _ h => h

theorem Within.bind {x : Code α} {f : α → Code β} (hx : Within P E x)
    (hf : ∀ a, Within P E (f a)) :
    Within P E (x >>= f) := Triple.bind hx hf

theorem Within.get_bind {f : State → Code β} (h : ∀ s, P s → Within P E (f s)) :
    Within P E (get >>= f) := Triple.get_bind' h

theorem Within.bits_bind {f : Nat → Code β} {n : Nat} (h : ∀ b, Within P E (f b)) :
    Within P E (bits n >>= f) := Within.bind (Within.get_bind fun _ _ => Within.pure _) h

theorem Within.ite {p : Prop} [Decidable p] {x y : Code α} (hx : Within P E x)
    (hy : Within P E y) : Within P E (if p then x else y) := Triple.ite (fun _ => hx) fun _ => hy

theorem Within.onlyIf {p : Prop} [Decidable p] {a : α} {x : Code α} (h : Within P E x) :
    Within P E (onlyIf p a x) := Within.ite h (Within.pure a)

theorem Within.fromFlag {flag : Nat} {a : α} {x : Code α} (h : Within P E x) :
    Within P E (fromFlag flag a x) := Within.get_bind fun _ _ => Within.onlyIf h

theorem Returns.call {x : Code Nat} (h : Returns P E x) : Returns P E (call x) := by
  refine (triple_call (S := fun s => E s) (h.conseq (fun _ hs => hs) (fun _ _ hs => hs)
    fun e s hs => ⟨?_, fun _ => hs.2⟩)).conseq (fun _ hs => hs) (fun _ _ hs => hs) ?_
  · rintro r rfl
    exact ⟨fun hr => hs.1 (hr ▸ rfl), hs.2⟩
  · rintro e s ⟨rfl, hs⟩
    exact ⟨nofun, hs⟩

end Rules

/-- The end of `inflate_fixed` and `inflate_dynamic`: the codes of the block, and the call of
`keyword_match` behind them. -/
def codesThenMatch (env : Env) (tl td : HuftPtr) (bl bd : Nat) : Code Nat := do
  if (← inflateCodes env tl td bl bd) ≠ 0 then
    dropTables
    ret 1
  else matchBlock env

/-- `P` holds wherever the inflater can return with 0, and `E` wherever it can return: the codes of
a block with the call of `keyword_match` behind them keep `P`, which does not depend on the bit
buffer and the head beside its flag. -/
structure Stable (env : Env) (P E : State → Prop) : Prop where
  weaken : ∀ s, P s → E s
  touch : ∀ (s : State) (head : Head) (bb bk : Nat), head.flag = s.head.flag → P s →
    P { s with head, bb, bk }
  setFlag : ∀ (s : State) (flag : Nat), flag < 9 ∨ 14 < flag → P s → P { s with flag }
  needBits : ∀ n fuel, Within P E (needBits env n fuel)
  codesThenMatch : ∀ tl td bl bd, Returns P E (codesThenMatch env tl td bl bd)

namespace Stable

variable {env : Env} {P E : State → Prop} (h : Stable env P E)
include h

theorem ret {α : Type} (r : Nat) : Within P E (ret r : Code α) :=
  Triple.throw fun s hs => ⟨fun _ => hs, h.weaken s hs⟩

/-- A value that is returned behind a state of `P`. -/
theorem returns {x : Code Nat} (hx : Within P E x) : Returns P E x :=
  hx.conseq (fun _ hs => hs) (fun _ s hs => ⟨fun _ => hs, h.weaken s hs⟩) fun _ _ hs => hs

theorem modifyHead {f : Head → Head} (hf : ∀ h, (f h).flag = h.flag) :
    Within P E (modifyHead f) :=
  Triple.modify fun s hs => h.touch s (f s.head) s.bb s.bk (hf _) hs

theorem setFlag' {flag : Nat} (hFlag : flag < 9 ∨ 14 < flag) : Within P E (Gunzip.setFlag flag) :=
  Triple.modify fun s hs => h.setFlag s flag hFlag hs

theorem dumpBits (n : Nat) : Within P E (dumpBits n) :=
  Triple.modify fun s hs => h.touch s s.head _ _ rfl hs

theorem dropTables' : Within P E Gunzip.dropTables := h.modifyHead fun _ => rfl

theorem saveBits : Within P E
    (modify fun s => { s with head := { s.head with bb := s.bb, bk := s.bk } } : Code Unit) :=
  Triple.modify fun s hs => h.touch s _ s.bb s.bk rfl hs

theorem readField {flag : Nat} (n : Nat) {store : Nat → Head → Head}
    (hFlag : flag < 9 ∨ 14 < flag) (hStore : ∀ x h, (store x h).flag = h.flag) :
    Within P E (readField env flag n store) :=
  Within.fromFlag (Within.bind (h.setFlag' hFlag) fun _ => Within.bind (h.needBits _ _) fun _ =>
    Within.bind (h.setFlag' (by decide)) fun _ => Within.bits_bind fun x =>
    Within.bind (h.modifyHead (hStore x)) fun _ => h.dumpBits _)

theorem inflateFixed : Returns P E (inflateFixed env) := by
  unfold Gunzip.inflateFixed
  generalize huftBuild env.stale fixedLengths 257 (some cplens) (some cplext) 7 = lits
  generalize huftBuild env.stale (List.replicate 30 5) 0 (some cpdist) (some cpdext) 5 = dists
  refine Returns.call (Triple.bind (h.modifyHead fun _ => rfl) fun _ =>
    Triple.ite (fun _ => h.returns (h.ret _)) fun _ => ?_)
  refine Triple.bind (h.modifyHead fun _ => rfl) fun _ => Triple.ite (fun _ => ?_) fun _ => ?_
  · exact h.returns (Within.bind h.dropTables' fun _ => h.ret _)
  · refine Triple.get_bind' fun s _ => ?_
    cases s.head.tl with
    | none => exact h.returns (h.ret 1)
    | some tl =>
      cases s.head.td with
      | none => exact h.returns (h.ret 1)
      | some td => exact h.codesThenMatch _ _ _ _

theorem setLength (i x : Nat) : Within P E (setLength i x) := h.modifyHead fun _ => rfl

theorem setLengths (i x n : Nat) : Within P E (setLengths i x n) := by
  induction n generalizing i with
  | zero => exact Within.pure _
  | succ n ih => exact Within.bind (h.setLength _ _) fun _ => ih _

theorem bitLengths (nb k : Nat) : Within P E (bitLengths env nb k) := by
  induction k with
  | zero => exact Within.pure _
  | succ k ih =>
    refine Within.bind (h.setFlag' (by decide)) fun _ => Within.bind (h.modifyHead fun _ => rfl)
      fun _ => Within.bind (h.needBits _ _) fun _ =>
        Within.bind (h.setFlag' (by decide)) fun _ => ?_
    exact Within.bits_bind fun _ => Within.bind (h.setLength _ _) fun _ =>
      Within.bind (h.dumpBits _) fun _ => ih

theorem clearBitLengths (js : List Nat) : Within P E (clearBitLengths js) := by
  induction js with
  | nil => exact Within.pure _
  | cons j js ih => exact Within.bind (h.setLength _ _) fun _ => ih

theorem lengthCode (bl j : Nat) : Within P E (lengthCode env bl j) := by
  refine Within.fromFlag (Within.bind (h.setFlag' (by decide)) fun _ =>
    Within.bind (h.needBits _ _) fun _ => Within.get_bind fun s _ => ?_)
  cases s.head.tl with
  | none => exact h.ret 1
  | some tl =>
    exact Within.bits_bind fun _ => Within.bind (h.modifyHead fun _ => rfl) fun _ =>
      Within.bind (h.dumpBits _) fun _ => Within.bind (h.modifyHead fun _ => rfl) fun _ =>
      Within.pure _

theorem repeatLength (n k base i x : Nat) : Within P E (repeatLength env n k base i x) := by
  refine Within.bind (h.needBits _ _) fun _ => Within.bits_bind fun _ =>
    Within.bind (h.dumpBits _) fun _ => Within.ite (h.ret 1) ?_
  exact Within.bind (h.setLengths _ _ _) fun _ => Within.pure _

theorem lengthRun (n i l j : Nat) : Within P E (lengthRun env n i l j) := by
  refine Within.ite (Within.bind (h.setLength _ _) fun _ => Within.pure _) (Within.ite ?_
    (Within.ite ?_ ?_))
  all_goals exact Within.bind (h.repeatLength _ _ _ _ _) fun _ => Within.pure _

theorem codeLengths (n bl fuel i l : Nat) : Within P E (codeLengths env n bl fuel i l) := by
  induction fuel generalizing i l with
  | zero => exact Within.pure _
  | succ fuel ih =>
    refine Within.ite (Within.get_bind fun s _ => ?_) (Within.pure _)
    refine Within.bind (h.lengthCode _ _) fun j => Within.bind (h.setFlag' (by decide)) fun _ =>
      Within.bind (h.lengthRun _ _ _ _) fun _ => ?_
    exact Within.bind (h.setFlag' (by decide)) fun _ => Within.bind (h.modifyHead fun _ => rfl)
      fun _ => ih _ _

theorem buildBitLengths (j : Nat) : Within P E (buildBitLengths env j) := by
  refine Within.get_bind fun s _ => Within.bind (Within.fromFlag ?_) fun _ =>
    Within.get_bind fun s _ => ?_
  · exact Within.bind (h.bitLengths _ _) fun _ => Within.bind (h.clearBitLengths _) fun _ =>
      h.modifyHead fun _ => rfl
  · refine Within.ite (Within.bind (h.modifyHead fun _ => rfl) fun _ => Within.ite ?_
      (h.modifyHead fun _ => rfl)) (Within.pure _)
    exact Within.bind h.dropTables' fun _ => h.ret _

theorem buildTables : Within P E (buildTables env) := by
  refine Within.bind h.dropTables' fun _ => Within.bind h.saveBits fun _ =>
    Within.get_bind fun s _ => Within.bind (h.modifyHead fun _ => rfl) fun _ => Within.ite ?_ ?_
  · exact Within.bind (Within.onlyIf h.dropTables') fun _ => h.ret _
  · refine Within.bind (h.modifyHead fun _ => rfl) fun _ => Within.ite ?_
      (h.modifyHead fun _ => rfl)
    exact Within.bind h.dropTables' fun _ => h.ret _

theorem inflateDynamic : Returns P E (inflateDynamic env) := by
  refine Returns.call (Triple.get_bind' fun _ _ =>
    Triple.bind (h.readField 5 (by decide) fun _ _ => rfl) fun _ =>
    Triple.bind (h.readField 5 (by decide) fun _ _ => rfl) fun _ =>
    Triple.bind (h.readField 4 (by decide) fun _ _ => rfl) fun _ =>
    Triple.get_bind' fun s _ => Triple.ite (fun _ => h.returns (h.ret 1)) fun _ => ?_)
  refine Triple.bind (h.buildBitLengths _) fun _ => Triple.get_bind' fun s _ =>
    Triple.bind (Within.onlyIf (h.codeLengths _ _ _ _ _)) fun _ => Triple.get_bind' fun _ _ =>
    Triple.bind (Within.onlyIf h.buildTables) fun _ => Triple.get_bind' fun s _ => ?_
  cases hl : s.head.tl with
  | none => simp only [hl]; exact h.returns (h.ret 1)
  | some tl =>
    cases hd : s.head.td with
    | none => simp only [hl, hd]; exact h.returns (h.ret 1)
    | some td => simp only [hl, hd]; exact h.codesThenMatch _ _ _ _

theorem storedLoop (n : Nat) : Within P E (storedLoop env n) := by
  induction n with
  | zero => exact Within.pure _
  | succ n ih =>
    exact Within.bind (h.setFlag' (by decide)) fun _ => Within.bind (h.modifyHead fun _ => rfl)
      fun _ => Within.bind (h.needBits _ _) fun _ => Within.bind (h.setFlag' (by decide)) fun _ =>
      Within.bind (h.dumpBits _) fun _ => ih

theorem inflateStored : Returns P E (inflateStored env) := by
  refine Returns.call (h.returns (Within.get_bind fun _ _ =>
    Within.bind (Within.onlyIf (h.dumpBits _)) fun _ =>
    Within.bind (Within.fromFlag ?_) fun n => Within.bind (Within.fromFlag ?_) fun _ =>
    Within.bind (Within.fromFlag (h.storedLoop n)) fun _ => ?_))
  · exact Within.bind (h.setFlag' (by decide)) fun _ => Within.bind (h.needBits _ _) fun _ =>
      Within.bind (h.setFlag' (by decide)) fun _ => Within.bits_bind fun _ =>
      Within.bind (h.dumpBits _) fun _ => Within.pure _
  · exact Within.bind (h.setFlag' (by decide)) fun _ => Within.bind (h.needBits _ _) fun _ =>
      Within.bind (h.setFlag' (by decide)) fun _ => Within.bits_bind fun _ =>
      Within.ite (h.ret 1) (h.dumpBits _)
  · exact Within.bind h.saveBits fun _ => Within.pure _

theorem inflateType (t : Nat) : Returns P E (inflateType env t) := by
  unfold Gunzip.inflateType
  split_ifs
  · exact h.inflateDynamic
  · exact h.inflateStored
  · exact h.inflateFixed
  · exact h.returns (Within.pure _)

theorem inflateBlock : Returns P E (inflateBlock env) :=
  Returns.call (Triple.bind (h.readField 1 (by decide) fun _ _ => rfl) fun _ =>
    Triple.bind (h.readField 2 (by decide) fun _ _ => rfl) fun _ =>
    Triple.get_bind' fun _ _ => h.inflateType _)

theorem blocksLoop (fuel : Nat) : Returns P E (blocksLoop env fuel) := by
  induction fuel with
  | zero => exact h.returns (Triple.throw fun s hs => ⟨nofun, h.weaken s hs⟩)
  | succ fuel ih =>
    refine Triple.bind h.inflateBlock fun r => Triple.get_bind' fun s _ =>
      Triple.ite (fun hr => Triple.pure fun s hs => hs) fun hr => ?_
    have hP : ∀ s, ((r = 0 → P s) ∧ E s) → P s := fun s hs => hs.1 (by simpa using hr)
    exact Triple.ite (fun _ => ih.conseq hP (fun _ _ hs => hs) fun _ _ hs => hs) fun _ =>
      Triple.pure fun s hs => ⟨fun _ => hP s hs, hs.2⟩

/-- The rule: when the start of `inflate` leads from `S` to `P`, it ends within `P` and `E`. -/
theorem inflate {S : State → Prop} (hStart : ∀ s, S s → P
      (if s.head.flag ≠ 0 then { s with flag := s.head.flag, bb := s.head.bb, bk := s.head.bk }
      else
        { s with flag := 0, bb := 0, bk := 0, lit := 0, dist := 0, length := 0,
                 head := { s.head with tl := none, td := none, tt := none } })) :
    Triple S (inflate env) (fun r s => (r = 0 → P s) ∧ E s) fun e s =>
      (e = .ret 0 → P s) ∧ E s :=
  Triple.bind (Triple.modify hStart) fun _ => h.blocksLoop _

end Stable

end Shutter.Gunzip
