import Shutter.Gunzip.Blocks
import Shutter.Gunzip.Response
import Shutter.Library.Relational

/-! Two runs of the inflater from heads that may differ in fields that have not been set since the
start of a response.  Which fields a call of `inflate` reads of the head depends on the flag. -/

namespace Shutter.Gunzip

open Shutter.Library

/-- The fields that have been set before flag `f` are the same. -/
structure Saved (f : Nat) (h h' : Head) : Prop where
  e : 2 ≤ f → h'.e = h.e
  t : 3 ≤ f → h'.t = h.t
  nl : 4 ≤ f → h.t = 2 → h'.nl = h.nl
  nd : 5 ≤ f → h.t = 2 → h'.nd = h.nd
  nb : 6 ≤ f → h.t = 2 → h'.nb = h.nb
  bl : 7 ≤ f → h.t = 2 → h'.bl = h.bl
  ll : 7 ≤ f → h.t = 2 → ∀ i < 19, h'.ll i = h.ll i
  bd : 9 ≤ f → h.t = 2 → h'.bd = h.bd

/-- The index `j` is the same, and so are the lengths of the bit length codes below it. -/
structure Stale (h h' : Head) : Prop where
  j : h'.j = h.j
  lengths : ∀ k < h.j, h'.ll (border[k]?.getD 0) = h.ll (border[k]?.getD 0)

/-- What is read at flag `f` only, and the type of block that has this flag. -/
structure Local (f : Nat) (h h' : Head) : Prop where
  dynamic : 3 ≤ f → f ≤ 8 → h.t = 2
  stale : 6 ≤ f → f ≤ 8 → Stale h h'
  index : f = 6 → h.j < h.nb
  counts : 7 ≤ f → f ≤ 8 → 0 < h.nl + h.nd
  codes : 9 ≤ f → f ≤ 14 → h.t ≠ 0 ∧ h'.ee = h.ee
  stored : 15 ≤ f → h.t = 0
  n : f = 17 → h'.n = h.n

/-- What the next call of `inflate` reads of the head is the same. -/
structure SameHead (h h' : Head) : Prop where
  flag : h'.flag = h.flag
  bits : h.flag ≠ 0 → h'.bb = h.bb ∧ h'.bk = h.bk
  tables : h.flag ≠ 0 → h'.tl = h.tl ∧ h'.td = h.td ∧ h'.tt = h.tt
  saved : Saved h.flag h h'
  local_ : Local h.flag h h'

/-- The flag is the same, and in the case `live` the index `j` that a response finds is, too. -/
structure Left (live : Prop) (h h' : Head) : Prop where
  kept : live → Stale h h'
  flag : h'.flag = h.flag

/-- The heads between two calls of `inflate`. -/
structure Ready (live : Prop) (h h' : Head) : Prop extends Left live h h' where
  same : SameHead h h'

/-- What is the same in all of a call of `inflate`. -/
structure Twin (live : Prop) (h h' : Head) : Prop extends Left live h h' where
  bits : h.flag ≠ 0 → h'.bb = h.bb ∧ h'.bk = h.bk
  tl : h'.tl = h.tl
  td : h'.td = h.td
  tt : h'.tt = h.tt

theorem Saved.mono {f g : Nat} {h h' : Head} (hs : Saved g h h') (hfg : f ≤ g) :
    Saved f h h' where
  e hf := hs.e (Nat.le_trans hf hfg)
  t hf := hs.t (Nat.le_trans hf hfg)
  nl hf := hs.nl (Nat.le_trans hf hfg)
  nd hf := hs.nd (Nat.le_trans hf hfg)
  nb hf := hs.nb (Nat.le_trans hf hfg)
  bl hf := hs.bl (Nat.le_trans hf hfg)
  ll hf := hs.ll (Nat.le_trans hf hfg)
  bd hf := hs.bd (Nat.le_trans hf hfg)

/-- No flag is behind flag 9 as far as `Saved` is concerned. -/
theorem Saved.of_nine {f : Nat} {h h' : Head} (hs : Saved 9 h h') : Saved f h h' where
  e _ := hs.e (by decide)
  t _ := hs.t (by decide)
  nl _ := hs.nl (by decide)
  nd _ := hs.nd (by decide)
  nb _ := hs.nb (by decide)
  bl _ := hs.bl (by decide)
  ll _ := hs.ll (by decide)
  bd _ := hs.bd (by decide)

theorem Left.dropTables {live : Prop} {h h' : Head} (hl : Left live h h') :
    Left live { h with tl := none, td := none, tt := none }
      { h' with tl := none, td := none, tt := none } where
  kept hLive := { hl.kept hLive with }
  flag := hl.flag

theorem Saved.start (h h' : Head) {f : Nat} (hf : f < 2) : Saved f h h' := by
  constructor <;> intros <;> omega

theorem Saved.of_type {f : Nat} {h h' : Head} (hType : h.t ≠ 2) (he : h'.e = h.e)
    (ht : h'.t = h.t) : Saved f h h' where
  e _ := he
  t _ := ht
  nl _ h := absurd h hType
  nd _ h := absurd h hType
  nb _ h := absurd h hType
  bl _ h := absurd h hType
  ll _ h := absurd h hType
  bd _ h := absurd h hType

theorem Local.early {f : Nat} (hf : f < 3) (h h' : Head) : Local f h h' := by
  constructor <;> intros <;> omega

theorem Twin.sameHead {h h' : Head} (ht : Twin live h h') (hs : Saved h.flag h h')
    (hl : Local h.flag h h') : SameHead h h' :=
  { ht with tables := fun _ => ⟨ht.tl, ht.td, ht.tt⟩, saved := hs, local_ := hl }

theorem Twin.ready {h h' : Head} (ht : Twin live h h') (hs : Saved h.flag h h')
    (hl : Local h.flag h h') : Ready live h h' where
  flag := ht.flag
  kept := ht.kept
  same := ht.sameHead hs hl

/-- The two states differ in the head and in `length` only, and `A` relates the heads at the
flag. -/
def Beside (A : Nat → Head → Head → Prop) (s t : State) : Prop :=
  ∃ head length, t = { s with head, length } ∧ A s.flag s.head head

/-- How a function is left: with 0 it has run out of input, and else the head is not used again
before the next response. -/
def Leave (live : Prop) (e : Exit) (s t : State) : Prop :=
  (e = .ret 0 → Beside (fun _ h h' => Ready live h h' ∧ h.flag ≠ 0) s t) ∧
    (∀ r, e = .ret r → Beside (fun _ => Left live) s t)

section Rules

variable {live : Prop} {α : Type} {A B : Nat → Head → Head → Prop}

theorem Beside.mono {s t : State} (h : Beside A s t) (hA : ∀ f h h', A f h h' → B f h h') :
    Beside B s t := by
  obtain ⟨head, length, rfl, hHead⟩ := h
  exact ⟨head, length, rfl, hA _ _ _ hHead⟩

variable {E : Exit → State → State → Prop}

/-- A step that does not look at the head and at `length`. -/
theorem beside_modify {f : State → State}
    (hf : ∀ (s : State) head length, f { s with head, length } = { f s with head, length })
    (hHead : ∀ s, (f s).head = s.head) (hFlag : ∀ s, (f s).flag = s.flag) :
    Agrees (Beside A) (modify f : Code Unit) (modify f) (fun _ => Beside A) E := by
  refine Agrees.modify fun s t hst => ?_
  obtain ⟨head, length, rfl, hA⟩ := hst
  exact ⟨head, length, hf s head length, by rw [hHead, hFlag]; exact hA⟩

theorem beside_modifyHead {f g : Head → Head} (hA : ∀ k h h', A k h h' → B k (f h) (g h')) :
    Agrees (Beside A) (modifyHead f) (modifyHead g) (fun _ => Beside B) E := by
  refine Agrees.modify fun s t hst => ?_
  obtain ⟨head, length, rfl, hHead⟩ := hst
  exact ⟨g head, length, rfl, hA _ _ _ hHead⟩

theorem beside_setFlag {flag : Nat} (hA : ∀ k h h', A k h h' → B flag h h') :
    Agrees (Beside A) (setFlag flag) (setFlag flag) (fun _ => Beside B) E := by
  refine Agrees.modify fun s t hst => ?_
  obtain ⟨head, length, rfl, hHead⟩ := hst
  exact ⟨head, length, rfl, hA _ _ _ hHead⟩

theorem beside_dumpBits (n : Nat) :
    Agrees (Beside A) (dumpBits n) (dumpBits n) (fun _ => Beside A) E :=
  beside_modify (fun _ _ _ => rfl) (fun _ => rfl) fun _ => rfl

theorem beside_get {f g : State → Code α} {Q : α → State → State → Prop}
    (h : ∀ (s : State) head length, A s.flag s.head head →
      Agrees (Beside fun k h h' => A k h h' ∧ k = s.flag ∧ h = s.head ∧ h' = head) (f s)
        (g { s with head, length }) Q E) :
    Agrees (Beside A) (get >>= f) (get >>= g) Q E := by
  refine Rel.get_bind_eq fun s t hst => ?_
  obtain ⟨head, length, rfl, hHead⟩ := hst
  refine (h s head length hHead).conseq (fun s' t' h' => ?_) (fun _ _ _ h => h) fun _ _ _ h => h
  obtain ⟨rfl, rfl⟩ := h'
  exact ⟨head, length, rfl, hHead, rfl, rfl, rfl⟩

theorem beside_get' {f g : State → Code α} {Q : α → State → State → Prop}
    (h : ∀ (s : State) head length, A s.flag s.head head →
      Agrees (Beside A) (f s) (g { s with head, length }) Q E) :
    Agrees (Beside A) (get >>= f) (get >>= g) Q E :=
  beside_get fun s head length hHead => (h s head length hHead).conseq
    (fun _ _ hst => hst.mono fun _ _ _ h => h.1) (fun _ _ _ h => h) fun _ _ _ h => h

theorem beside_bits {f g : Nat → Code α} {n : Nat} {Q : α → State → State → Prop}
    (h : ∀ b, Agrees (Beside A) (f b) (g b) Q E) :
    Agrees (Beside A) (bits n >>= f) (bits n >>= g) Q E :=
  Agrees.bind (Q := fun _ => Beside A) (beside_get' fun _ _ _ _ => Agrees.pure fun _ _ h => h) h

theorem agrees_onlyIf {p q : Prop} [Decidable p] [Decidable q]
    {R : State → State → Prop} {a : α} {x y : Code α} {Q : α → State → State → Prop}
    (hpq : p ↔ q) (hx : p → Agrees R x y Q E) (ha : ¬p → ∀ s t, R s t → Q a s t) :
    Agrees R (onlyIf p a x) (onlyIf q a y) Q E :=
  Rel.ite hpq hx fun hp => Agrees.pure (ha hp)

theorem beside_ret {r : Nat} {Q : α → State → State → Prop} (hr : r ≠ 0)
    (hA : ∀ k h h', A k h h' → Left live h h') :
    Agrees (Beside A) (ret r : Code α) (ret r) Q (Leave live) :=
  Agrees.throw fun _ _ hst => ⟨fun h => absurd (Exit.ret.inj h) hr, fun _ _ => hst.mono hA⟩

theorem beside_spin {R : State → State → Prop} {Q : α → State → State → Prop} :
    Agrees R (throw Exit.spin : Code α) (throw Exit.spin) Q (Leave live) :=
  Agrees.throw fun _ _ _ => ⟨nofun, nofun⟩

theorem beside_record (e : Event) :
    Agrees (Beside A) (record e) (record e) (fun _ => Beside A) E :=
  beside_modify (fun _ _ _ => rfl) (fun _ => rfl) fun _ => rfl

theorem beside_recordToken (e : Nat → Nat → Event) :
    Agrees (Beside A) (recordToken e) (recordToken e) (fun _ => Beside A) E :=
  beside_modify (fun _ _ _ => rfl) (fun _ => rfl) fun _ => rfl

theorem agrees_call {R : State → State → Prop} {x y : Code Nat}
    {Q : Nat → State → State → Prop}
    (h : Agrees R x y Q fun e s t => ∀ r, e = .ret r → Q r s t) :
    Agrees R (call x) (call y) Q fun e _ _ => e = .spin := by
  refine ⟨fun s t hst => ?_⟩
  have hEnds := h.ends s t hst
  unfold call
  revert hEnds
  cases x s with
  | ok r s' =>
    cases y t with
    | ok r' t' => exact fun hEnds => hEnds
    | error e t' => exact fun hEnds => False.elim hEnds
  | error e s' =>
    cases y t with
    | ok r t' => exact fun hEnds => False.elim hEnds
    | error e' t' =>
      rintro ⟨rfl, hQ⟩
      cases e with
      | ret r => exact ⟨rfl, hQ r rfl⟩
      | spin => exact ⟨rfl, rfl⟩

end Rules

section Blocks

variable (s : State) (head : Head) (length : Nat)

@[simp] theorem block_with : State.block { s with head, length } = s.block := rfl

@[simp] theorem nextBlock_with : State.nextBlock { s with head, length } = s.nextBlock := rfl

@[simp] theorem blockLen_with : State.blockLen { s with head, length } = s.blockLen := rfl

end Blocks

/-- `waitbuf` does not look at the head. -/
def Env.Blind (env : Env) : Prop :=
  ∀ A, Agrees (Beside A) env.waitbuf env.waitbuf (fun _ => Beside A) fun _ _ _ => False

section Waitbuf

variable {A : Nat → Head → Head → Prop} {E : Exit → State → State → Prop} (m : Memory)

theorem chunkHeader_beside (block : Shutter.Stream.Segment) (size : List UInt8) (p : Nat) :
    Agrees (Beside A) (chunkHeader m block size p) (chunkHeader m block size p) (fun _ => Beside A)
      E := by
  refine Agrees.bind (beside_modify (fun _ _ _ => rfl) (fun _ => rfl) fun _ => rfl) fun _ => ?_
  exact Rel.ite Iff.rfl (fun _ => beside_modify (fun _ _ _ => rfl) (fun _ => rfl) fun _ => rfl)
    fun _ => beside_modify (fun _ _ _ => rfl) (fun _ => rfl) fun _ => rfl

theorem fillBuffer_beside (next : Bool) (block : Shutter.Stream.Segment) :
    Agrees (Beside A) (fillBuffer m next block) (fillBuffer m next block)
      (fun _ => Beside A) E := by
  refine Agrees.bind (beside_modify (fun _ _ _ => rfl) (fun _ => rfl) fun _ => rfl) fun _ =>
    beside_get' fun s head length _ => ?_
  refine Rel.ite Iff.rfl (fun _ => beside_modify (fun _ _ _ => rfl) (fun _ => rfl) fun _ => rfl)
    fun _ => Rel.ite Iff.rfl (fun _ => beside_modify (fun _ _ _ => rfl) (fun _ => rfl) fun _ => rfl)
    fun _ => Rel.ite Iff.rfl (fun _ => chunkHeader_beside m _ _ _) fun _ =>
    Rel.ite Iff.rfl (fun _ => ?_) fun _ =>
      beside_modify (fun _ _ _ => rfl) (fun _ => rfl) fun _ => rfl
  exact Rel.ite Iff.rfl (fun _ => beside_modify (fun _ _ _ => rfl) (fun _ => rfl) fun _ => rfl)
    fun _ => chunkHeader_beside m _ _ _

theorem Machine.blind (m : Machine) : m.env.Blind := by
  intro A
  refine Agrees.bind (beside_modify (fun _ _ _ => rfl) (fun _ => rfl) fun _ => rfl) fun _ =>
    beside_get' fun s head length _ => ?_
  simp only [block_with, nextBlock_with]
  cases hBlock : s.block with
  | none => exact beside_modify (fun _ _ _ => rfl) (fun _ => rfl) fun _ => rfl
  | some block =>
    refine Rel.ite Iff.rfl (fun _ => ?_) fun _ => fillBuffer_beside m.toMemory _ _
    cases hNext : s.nextBlock with
    | none => exact beside_modify (fun _ _ _ => rfl) (fun _ => rfl) fun _ => rfl
    | some next =>
      exact Agrees.bind (beside_modify (fun _ _ _ => rfl) (fun _ => rfl) fun _ => rfl) fun _ =>
        fillBuffer_beside m.toMemory _ _

end Waitbuf

end Shutter.Gunzip
