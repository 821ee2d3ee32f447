import Shutter.Gunzip.Twin.Beside

/-! What is the same of two heads in the parts of the inflater.  Each part reads at a flag of its
own, and sets the field that the parts behind it read. -/

namespace Shutter.Gunzip

open Shutter.Library

/-- A relation between the heads that does not change when `NEEDBITS` saves flag `f`, with the next
call of `inflate` to go on there. -/
structure Keepable (live : Prop) (f : Nat) (A : Head → Head → Prop) : Prop where
  left : ∀ h h', A h h' → Left live h h'
  same : ∀ h h' bb bk, A h h' →
    SameHead { h with flag := f, bb, bk } { h' with flag := f, bb, bk }
  save : ∀ h h' bb bk, A h h' → A { h with flag := f, bb, bk } { h' with flag := f, bb, bk }

/-- The heads at flag `f`. -/
abbrev AtFlag (f : Nat) (A : Head → Head → Prop) : State → State → Prop :=
  Beside fun k h h' => k = f ∧ A h h'

/-- A condition on the head that holds in the functions that read at flag `f`, wherever they are
left: at the flags from 3 on the block is dynamic. -/
structure Kind (f : Nat) (kind : Head → Head → Prop) : Prop where
  dynamic : 3 ≤ f → ∀ h h', kind h h' → h.t = 2
  save : ∀ h h' bb bk, kind h h' →
    kind { h with flag := f, bb, bk } { h' with flag := f, bb, bk }

/-- Behind the parts of the functions that read at the flags below `p`.  A function that goes on at
a flag skips the parts below it. -/
structure Stage (live : Prop) (p : Nat) (kind : Head → Head → Prop) (f : Nat) (h h' : Head) :
    Prop where
  twin : Twin live h h'
  saved : Saved (max p f) h h'
  local_ : Local f h h'
  reached : f = 0 ∨ p ≤ f
  earlier : h.flag < p ∧ (f = 0 ∨ 9 ≤ f) ∨ h.flag = f
  kind : kind h h'

/-- In the part that reads at flag `f`. -/
structure Body (live : Prop) (f : Nat) (kind : Head → Head → Prop) (h h' : Head) : Prop where
  twin : Twin live h h'
  saved : Saved f h h'
  earlier : h.flag ≤ f
  kind : kind h h'

/-- The heads behind the lines of `NEEDBITS` that save a flag. -/
theorem Twin.saveBits {h h' : Head} (ht : Twin live h h') (flag bb bk : Nat) :
    Twin live { h with flag, bb, bk } { h' with flag, bb, bk } :=
  { ht with kept := fun h => { ht.kept h with }, flag := rfl, bits := fun _ => ⟨rfl, rfl⟩ }

theorem Twin.save {f : Nat} {h h' : Head} (ht : Twin live h h') (hs : Saved f h h')
    (hl : Local f h h') (bb bk : Nat) : SameHead { h with flag := f, bb, bk }
    { h' with flag := f, bb, bk } :=
  (ht.saveBits f bb bk).sameHead { hs with }
    { hl with stale := fun h6 h8 => { hl.stale h6 h8 with } }

variable {live : Prop} {kind : Head → Head → Prop}

theorem Keepable.ready {f : Nat} {A : Head → Head → Prop} (hA : Keepable live f A) {h h' : Head}
    (hh : A h h') (bb bk : Nat) :
    Ready live { h with flag := f, bb, bk } { h' with flag := f, bb, bk } where
  flag := rfl
  kept hLive := { (hA.left h h' hh).kept hLive with }
  same := hA.same h h' bb bk hh

theorem Body.keepable {f : Nat} (hf : f ≤ 5) (hKind : Kind f kind) :
    Keepable live f (Body live f kind) where
  left _ _ hb := hb.twin.toLeft
  same h h' bb bk hb := by
    refine hb.twin.save hb.saved ⟨fun h3 _ => hKind.dynamic h3 h h' hb.kind, ?_, ?_,
      ?_, ?_, ?_, ?_⟩
      bb bk
    all_goals exact fun h => by omega
  save h h' bb bk hb := ⟨hb.twin.saveBits f bb bk, { hb.saved with }, Nat.le_refl f,
    hKind.save h h' bb bk hb.kind⟩

theorem Stage.body {p k : Nat} {h h' : Head} (hs : Stage live p kind k h h')
    (hOwn : k = 0 ∨ k = p) : Body live p kind h h' where
  twin := hs.twin
  saved := hs.saved.mono (Nat.le_max_left p k)
  earlier := by rcases hs.earlier with h | h <;> omega
  kind := hs.kind

theorem Stage.skip {p k : Nat} {h h' : Head} (hs : Stage live p kind k h h')
    (hOther : ¬(k = 0 ∨ k = p)) : Stage live (p + 1) kind k h h' where
  twin := hs.twin
  saved := by
    have hk : max (p + 1) k = max p k := by have := hs.reached; omega
    exact hk ▸ hs.saved
  local_ := hs.local_
  reached := by have := hs.reached; omega
  earlier := by rcases hs.earlier with h | h <;> omega
  kind := hs.kind

theorem Body.stage {p : Nat} {h h' : Head} (hb : Body live p kind h h') (hs : Saved (p + 1) h h') :
    Stage live (p + 1) kind 0 h h' where
  twin := hb.twin
  saved := hs.mono (by omega)
  local_ := Local.early (by decide) h h'
  reached := Or.inl rfl
  earlier := Or.inl ⟨Nat.lt_succ_of_le hb.earlier, Or.inl rfl⟩
  kind := hb.kind

/-- A call of `inflate` that goes on at the flags 3 to 5 reads `j`, which the block has not set. -/
def Resumes (h h' : Head) : Prop := 3 ≤ h.flag → h.flag ≤ 5 → Stale h h'

theorem kind_resumes {f : Nat} (hf : f < 3) : Kind f Resumes :=
  ⟨fun h3 => absurd h3 (Nat.not_le.mpr hf), fun _ _ _ _ _ h3 => absurd h3 (Nat.not_le.mpr hf)⟩

theorem Body.e {h h' : Head} (hb : Body live 1 Resumes h h') (x : Nat) :
    Body live 1 Resumes { h with e := x } { h' with e := x } ∧
      Saved 2 { h with e := x } { h' with e := x } := by
  refine ⟨{ hb with
    twin := { hb.twin with kept := fun hLive => { hb.twin.kept hLive with } }
    saved := Saved.start _ _ (by decide)
    kind := fun h3 h5 => { hb.kind h3 h5 with } }, ?_⟩
  refine ⟨fun _ => rfl, ?_, ?_, ?_, ?_, ?_, ?_, ?_⟩
  all_goals exact fun h => absurd h (by decide)

theorem Body.t {h h' : Head} (hb : Body live 2 Resumes h h') (x : Nat) :
    Body live 2 Resumes { h with t := x } { h' with t := x } ∧
      Saved 3 { h with t := x } { h' with t := x } := by
  have he : h'.e = h.e := hb.saved.e (Nat.le_refl 2)
  have hSaved : Saved 3 { h with t := x } { h' with t := x } := by
    refine ⟨fun _ => he, fun _ => rfl, ?_, ?_, ?_, ?_, ?_, ?_⟩
    all_goals exact fun h => absurd h (by decide)
  exact ⟨{ hb with
    twin := { hb.twin with kept := fun hLive => { hb.twin.kept hLive with } }
    saved := hSaved.mono (by decide)
    kind := fun h3 h5 => { hb.kind h3 h5 with } }, hSaved⟩

/-- The block is dynamic, and `j` is the index that `inflate_dynamic` starts from. -/
def Dynamic (j : Nat) (h h' : Head) : Prop := h.t = 2 ∧ (j = 0 ∨ h.j = j ∧ Stale h h')

theorem kind_dynamic (j f : Nat) : Kind f (Dynamic j) :=
  ⟨fun _ _ _ h => h.1, fun _ _ _ _ h =>
    ⟨h.1, h.2.imp_right fun h => ⟨h.1, { h.2 with }⟩⟩⟩

/-- A field other than `j` and the lengths is set. -/
theorem Dynamic.field {j : Nat} {h h' k k' : Head} (hd : Dynamic j h h') (hType : k.t = h.t)
    (hk : k.j = h.j ∧ k.ll = h.ll) (hk' : k'.j = h'.j ∧ k'.ll = h'.ll) : Dynamic j k k' := by
  refine ⟨hType.trans hd.1, hd.2.imp_right fun h => ⟨hk.1.trans h.1, ?_, ?_⟩⟩
  · rw [hk.1, hk'.1, h.2.j]
  · rw [hk.1, hk.2, hk'.2]
    exact h.2.lengths

theorem Body.nl {j : Nat} {h h' : Head} (hb : Body live 3 (Dynamic j) h h') (x : Nat) :
    Body live 3 (Dynamic j) { h with nl := x } { h' with nl := x } ∧
      Saved 4 { h with nl := x } { h' with nl := x } := by
  have hs := hb.saved
  refine ⟨{ hb with
    twin := { hb.twin with kept := fun hLive => { hb.twin.kept hLive with } }
    saved := { hs with nl := fun _ _ => rfl }
    kind := hb.kind.field rfl ⟨rfl, rfl⟩ ⟨rfl, rfl⟩ }, ?_⟩
  refine ⟨fun _ => hs.e (by decide), fun _ => hs.t (by decide), fun _ _ =>
    rfl, ?_, ?_, ?_, ?_, ?_⟩
  all_goals exact fun h => absurd h (by decide)

theorem Body.nd {j : Nat} {h h' : Head} (hb : Body live 4 (Dynamic j) h h') (x : Nat) :
    Body live 4 (Dynamic j) { h with nd := x } { h' with nd := x } ∧
      Saved 5 { h with nd := x } { h' with nd := x } := by
  have hs := hb.saved
  refine ⟨{ hb with
    twin := { hb.twin with kept := fun hLive => { hb.twin.kept hLive with } }
    saved := { hs with nd := fun _ _ => rfl }
    kind := hb.kind.field rfl ⟨rfl, rfl⟩ ⟨rfl, rfl⟩ }, ?_⟩
  refine ⟨fun _ => hs.e (by decide), fun _ => hs.t (by decide), fun _ => hs.nl (by decide),
    fun _ _ => rfl, ?_, ?_, ?_, ?_⟩
  all_goals exact fun h => absurd h (by decide)

theorem Body.nb {j : Nat} {h h' : Head} (hb : Body live 5 (Dynamic j) h h') (x : Nat) :
    Body live 5 (Dynamic j) { h with nb := x } { h' with nb := x } ∧
      Saved 6 { h with nb := x } { h' with nb := x } := by
  have hs := hb.saved
  refine ⟨{ hb with
    twin := { hb.twin with kept := fun hLive => { hb.twin.kept hLive with } }
    saved := { hs with nb := fun _ _ => rfl }
    kind := hb.kind.field rfl ⟨rfl, rfl⟩ ⟨rfl, rfl⟩ }, ?_⟩
  refine ⟨fun _ => hs.e (by decide), fun _ => hs.t (by decide), fun _ => hs.nl (by decide),
    fun _ => hs.nd (by decide), fun _ _ => rfl, ?_, ?_, ?_⟩
  all_goals exact fun h => absurd h (by decide)

/-! ### The lengths of the bit length codes -/

/-- Each index below 19 is in the order of the bit lengths, and no other is. -/
theorem border_lt (k : Nat) : border[k]?.getD 0 < 19 := by
  by_cases hk : k < 19
  · exact (by decide : ∀ k < 19, border[k]?.getD 0 < 19) k hk
  · rw [List.getElem?_eq_none (by simpa [border] using hk)]
    decide

theorem border_surjective (i : Nat) (hi : i < 19) : ∃ k < 19, border[k]?.getD 0 = i :=
  (by decide : ∀ i < 19, ∃ k < 19, border[k]?.getD 0 = i) i hi

/-- The lengths of the first `j` of `nb` bit length codes are the same. -/
structure Lengths (live : Prop) (nb j : Nat) (h h' : Head) : Prop where
  body : Body live 6 (fun h _ => h.t = 2 ∧ h.nb = nb) h h'
  ll : ∀ k < j, h'.ll (border[k]?.getD 0) = h.ll (border[k]?.getD 0)

variable {nb : Nat}

theorem Lengths.mono {i j : Nat} {h h' : Head} (hl : Lengths live nb j h h') (hij : i ≤ j) :
    Lengths live nb i h h' := ⟨hl.body, fun k hk => hl.ll k (Nat.lt_of_lt_of_le hk hij)⟩

theorem Lengths.setJ {j : Nat} {h h' : Head} (hl : Lengths live nb j h h') :
    Lengths live nb j { h with j := j } { h' with j := j } ∧
      Stale { h with j := j } { h' with j := j } := by
  have hStale : Stale { h with j := j } { h' with j := j } := ⟨rfl, hl.ll⟩
  exact ⟨⟨{ hl.body with
    twin := { hl.body.twin with kept := fun _ => hStale }
    saved := { hl.body.saved with } }, hl.ll⟩, hStale⟩

theorem Lengths.keepable {j : Nat} (hj : j < nb) :
    Keepable live 6 fun h h' => (Lengths live nb j h h' ∧ Stale h h') ∧ h.j = j where
  left _ _ hl := hl.1.1.body.twin.toLeft
  same h h' bb bk hl := by
    obtain ⟨⟨⟨hBody, -⟩, hStale⟩, rfl⟩ := hl
    refine hBody.twin.save hBody.saved ⟨fun _ _ => hBody.kind.1, fun _ _ =>
      hStale, fun _ => ?_, ?_,
      ?_, ?_, ?_⟩ bb bk
    · rw [hBody.kind.2]
      exact hj
    all_goals exact fun h => absurd h (by decide)
  save h h' bb bk hl := ⟨⟨⟨⟨hl.1.1.body.twin.saveBits 6 bb bk, { hl.1.1.body.saved with },
    Nat.le_refl 6, hl.1.1.body.kind⟩, hl.1.1.ll⟩, { hl.1.2 with }⟩, hl.2⟩

theorem Stale.setLength {h h' : Head} (hs : Stale h h') (i x : Nat) :
    Stale { h with ll := fun k => if k = i then x else h.ll k }
      { h' with ll := fun k => if k = i then x else h'.ll k } where
  j := hs.j
  lengths k hk := by
    show (if _ then x else _) = if _ then x else _
    rw [hs.lengths k hk]

theorem Twin.setLength {h h' : Head} (ht : Twin live h h') (i x : Nat) :
    Twin live { h with ll := fun k => if k = i then x else h.ll k }
      { h' with ll := fun k => if k = i then x else h'.ll k } :=
  { ht with kept := fun hLive => (ht.kept hLive).setLength i x }

theorem Saved.setLength {f : Nat} {h h' : Head} (hs : Saved f h h') (i x : Nat) :
    Saved f { h with ll := fun k => if k = i then x else h.ll k }
      { h' with ll := fun k => if k = i then x else h'.ll k } :=
  { hs with
    ll := fun hf h2 k hk => by
      show (if _ then x else _) = if _ then x else _
      rw [hs.ll hf h2 k hk] }

theorem Lengths.setLength {j : Nat} {h h' : Head} (hl : Lengths live nb j h h') (x : Nat) :
    Lengths live nb (j + 1) { h with ll := fun k => if k = border[j]?.getD 0 then x else h.ll k }
      { h' with ll := fun k => if k = border[j]?.getD 0 then x else h'.ll k } where
  body := { hl.body with twin := hl.body.twin.setLength _ x, saved := hl.body.saved.setLength _ x }
  ll k hk := by
    show (if _ then x else _) = if _ then x else _
    by_cases h : border[k]?.getD 0 = border[j]?.getD 0
    · rw [if_pos h, if_pos h]
    · rw [if_neg h, if_neg h, hl.ll k]
      have : k ≠ j := fun hkj => h (by rw [hkj])
      omega

/-- All lengths of the bit length codes are the same. -/
structure Measured (live : Prop) (h h' : Head) : Prop where
  body : Body live 6 (fun h _ => h.t = 2) h h'
  ll : ∀ i < 19, h'.ll i = h.ll i

theorem Lengths.measured {h h' : Head} (hl : Lengths live nb 19 h h') : Measured live h h' where
  body := { hl.body with kind := hl.body.kind.1 }
  ll i hi := by
    obtain ⟨k, hk, rfl⟩ := border_surjective i hi
    exact hl.ll k hk

theorem Measured.setJ {h h' : Head} (hm : Measured live h h') (x : Nat) :
    Measured live { h with j := x } { h' with j := x } ∧
      Stale { h with j := x } { h' with j := x } := by
  have hStale : Stale { h with j := x } { h' with j := x } :=
    ⟨rfl, fun k _ => hm.ll _ (border_lt k)⟩
  exact ⟨⟨{ hm.body with
    twin := { hm.body.twin with kept := fun _ => hStale }
    saved := { hm.body.saved with } }, hm.ll⟩, hStale⟩

/-- The head before the lengths are read, from the local `j` on. -/
theorem Stage.lengths {j k : Nat} {h h' : Head} (hs : Stage live 6 (Dynamic j) k h h')
    (hOwn : k = 0 ∨ k = 6) : (k = 0 ∨ k = 6 ∧ h.nb - j ≠ 0) ∧
    Lengths live h.nb j h h' := by
  have hBody := hs.body hOwn
  refine ⟨hOwn.imp_right fun hk => ⟨hk, ?_⟩,
    { hBody with kind := ⟨hs.kind.1, rfl⟩ }, ?_⟩
  · have hIndex := hs.local_.index hk
    rcases hs.kind.2 with hj | ⟨hj, -⟩ <;> omega
  · rcases hs.kind.2 with hj | ⟨hj, hStale⟩
    · exact fun k hk => absurd (hj ▸ hk) (Nat.not_lt_zero k)
    · exact hj ▸ hStale.lengths

/-! ### The code lengths -/

/-- The first `i` of the `n` code lengths are the same. -/
structure Counted (live : Prop) (n i : Nat) (h h' : Head) : Prop where
  body : Body live 8 (fun h _ => h.t = 2 ∧ h.nl + h.nd = n) h h'
  stale : Stale h h'
  ll : ∀ k < i, h'.ll k = h.ll k

variable {n : Nat}

theorem Counted.keepable {i f : Nat} (hn : 0 < n) (hf : f = 7 ∨ f = 8) :
    Keepable live f (Counted live n i) where
  left _ _ hc := hc.body.twin.toLeft
  same h h' bb bk hc := by
    refine hc.body.twin.save (hc.body.saved.mono (by omega)) ⟨fun _ _ => hc.body.kind.1,
      fun _ _ => hc.stale, ?_, ?_, ?_, ?_, ?_⟩ bb bk
    · exact fun h => by omega
    · exact fun _ _ => by rw [hc.body.kind.2]; exact hn
    all_goals exact fun h => by omega
  save h h' bb bk hc := ⟨⟨hc.body.twin.saveBits f bb bk, { hc.body.saved with }, by
    show f ≤ 8
    omega, hc.body.kind⟩, { hc.stale with }, hc.ll⟩

theorem Counted.setJ {i : Nat} {h h' : Head} (hc : Counted live n i h h') (x : Nat) :
    Counted live n i { h with j := x } { h' with j := x } := by
  have hStale : Stale { h with j := x } { h' with j := x } :=
    ⟨rfl, fun k _ => hc.body.saved.ll (by decide) hc.body.kind.1 _ (border_lt k)⟩
  exact ⟨{ hc.body with
    twin := { hc.body.twin with kept := fun _ => hStale }
    saved := { hc.body.saved with } }, hStale, hc.ll⟩

theorem Counted.setTd {i : Nat} {h h' : Head} (hc : Counted live n i h h') {td td' : Option HuftPtr}
    (hTd : td' = td) : Counted live n i { h with td } { h' with td := td' } where
  body := { hc.body with
    twin := { hc.body.twin with kept := fun _ => { hc.stale with }, td := hTd }
    saved := { hc.body.saved with } }
  stale := { hc.stale with }
  ll := hc.ll

theorem Counted.setTl {i : Nat} {h h' : Head} (hc : Counted live n i h h') {tl tl' : Option HuftPtr}
    (hTl : tl' = tl) : Counted live n i { h with tl } { h' with tl := tl' } where
  body := { hc.body with
    twin := { hc.body.twin with kept := fun _ => { hc.stale with }, tl := hTl }
    saved := { hc.body.saved with } }
  stale := { hc.stale with }
  ll := hc.ll

theorem Counted.dropTables {i : Nat} {h h' : Head} (hc : Counted live n i h h') :
    Counted live n i { h with tl := none, td := none, tt := none }
      { h' with tl := none, td := none, tt := none } where
  body := { hc.body with
    twin := { hc.body.twin with
      kept := fun _ => { hc.stale with }, tl := rfl, td := rfl, tt := rfl }
    saved := { hc.body.saved with } }
  stale := { hc.stale with }
  ll := hc.ll

theorem Counted.saveBits {i : Nat} {h h' : Head} (hc : Counted live n i h h') (bb bk : Nat) :
    Counted live n i { h with bb, bk } { h' with bb, bk } where
  body := { hc.body with
    twin := { hc.body.twin with kept := fun _ => { hc.stale with }, bits := fun _ =>
      ⟨rfl, rfl⟩ }
    saved := { hc.body.saved with } }
  stale := { hc.stale with }
  ll := hc.ll

theorem Counted.setLength {i : Nat} {h h' : Head} (hc : Counted live n i h h') (x : Nat) :
    Counted live n (i + 1) { h with ll := fun k => if k = i then x else h.ll k }
      { h' with ll := fun k => if k = i then x else h'.ll k } where
  body := { hc.body with twin := hc.body.twin.setLength _ x, saved := hc.body.saved.setLength _ x }
  stale := hc.stale.setLength i x
  ll k hk := by
    show (if _ then x else _) = if _ then x else _
    by_cases h : k = i
    · rw [if_pos h, if_pos h]
    · rw [if_neg h, if_neg h, hc.ll k (by omega)]

/-! ### The codes of a block -/

/-- Before the codes of a block are read, or go on at their flag. -/
structure Coding (live : Prop) (f : Nat) (h h' : Head) : Prop where
  twin : Twin live h h'
  saved : Saved 9 h h'
  type : h.t ≠ 0
  reached : f = 0 ∨ 9 ≤ f
  local_ : Local f h h'

theorem Coding.setTl {f : Nat} {h h' : Head} (hc : Coding live f h h') {tl tl' : Option HuftPtr}
    (hTl : tl' = tl) : Coding live f { h with tl } { h' with tl := tl' } where
  twin := { hc.twin with kept := fun hLive => { hc.twin.kept hLive with }, tl := hTl }
  saved := { hc.saved with }
  type := hc.type
  reached := hc.reached
  local_ := { hc.local_ with stale := fun h3 h8 => { hc.local_.stale h3 h8 with } }

theorem Coding.setTd {f : Nat} {h h' : Head} (hc : Coding live f h h') {td td' : Option HuftPtr}
    (hTd : td' = td) : Coding live f { h with td } { h' with td := td' } where
  twin := { hc.twin with kept := fun hLive => { hc.twin.kept hLive with }, td := hTd }
  saved := { hc.saved with }
  type := hc.type
  reached := hc.reached
  local_ := { hc.local_ with stale := fun h3 h8 => { hc.local_.stale h3 h8 with } }

/-- The codes of a block that is not dynamic come right behind its header. -/
theorem Stage.coding {f : Nat} {h h' : Head} (hs : Stage live 3 kind f h h') (hFixed : h.t ≠ 2)
    (hStored : h.t ≠ 0) : Coding live f h h' where
  twin := hs.twin
  saved := Saved.of_type hFixed (hs.saved.e (by omega)) (hs.saved.t (by omega))
  type := hStored
  reached := hs.reached.imp_right fun h3 => by
    by_contra h9
    exact hFixed (hs.local_.dynamic h3 (by omega))
  local_ := hs.local_

/-- Behind the first look at a code. -/
structure Coded (live : Prop) (h h' : Head) : Prop where
  twin : Twin live h h'
  saved : Saved 9 h h'
  type : h.t ≠ 0
  ee : h'.ee = h.ee

/-- A flag of the codes, or none. -/
abbrev CodedAt (live : Prop) (f : Nat) (h h' : Head) : Prop :=
  (f = 0 ∨ 9 ≤ f ∧ f ≤ 14) ∧ Coded live h h'

theorem Coded.local_ {f : Nat} {h h' : Head} (hc : Coded live h h') (hf : 9 ≤ f ∧ f ≤ 14) :
    Local f h h' where
  dynamic _ h8 := by omega
  stale _ h8 := by omega
  index h6 := by omega
  counts _ h8 := by omega
  codes _ _ := ⟨hc.type, hc.ee⟩
  stored h15 := by omega
  n h17 := by omega

theorem Coded.keepable {f : Nat} (hf : 9 ≤ f ∧ f ≤ 14) : Keepable live f (Coded live) where
  left _ _ hc := hc.twin.toLeft
  same _ _ bb bk hc := hc.twin.save (hc.saved.of_nine) (hc.local_ hf) bb bk
  save _ _ bb bk hc := ⟨hc.twin.saveBits f bb bk, { hc.saved with }, hc.type, hc.ee⟩

theorem Coded.setEe {h h' : Head} (hc : Coded live h h') (ee : Nat) :
    Coded live { h with ee } { h' with ee } :=
  ⟨{ hc.twin with kept := fun hLive => { hc.twin.kept hLive with } },
    { hc.saved with }, hc.type, rfl⟩

theorem Coded.setTt {h h' : Head} (hc : Coded live h h') (tt : Option HuftPtr) :
    Coded live { h with tt } { h' with tt } :=
  ⟨{ hc.twin with kept := fun hLive => { hc.twin.kept hLive with }, tt := rfl },
    { hc.saved with }, hc.type, hc.ee⟩

theorem Coded.setLook {h h' : Head} (hc : Coded live h h') (ee : Nat) (tt : Option HuftPtr) :
    Coded live { h with ee, tt } { h' with ee, tt } :=
  ⟨{ hc.twin with kept := fun hLive => { hc.twin.kept hLive with }, tt := rfl },
    { hc.saved with }, hc.type, rfl⟩

theorem Coded.ended {h h' : Head} (hc : Coded live h h') :
    Coded live { h with flag := 0, tt := none, tl := none, td := none }
      { h' with flag := 0, tt := none, tl := none, td := none } where
  twin := { hc.twin with
    kept := fun hLive => { hc.twin.kept hLive with }
    flag := rfl, bits := fun h => absurd rfl h, tl := rfl, td := rfl, tt := rfl }
  saved := { hc.saved with }
  type := hc.type
  ee := hc.ee

/-- Behind a block: the next one can be read, or the flag says where this one goes on. -/
structure Done (live : Prop) (f : Nat) (h h' : Head) : Prop where
  ready : Ready live h h'
  next : h.flag = 0 → Twin live h h' ∧ Saved f h h' ∧ h'.e = h.e ∧ Local f h h'
  reached : h.flag = 0 → f = 0 ∨ 9 ≤ f

/-- What a function of a block returns. -/
def BlockEnd (live : Prop) (r : Nat) (s t : State) : Prop :=
  (r = 0 → Beside (Done live) s t) ∧ Beside (fun _ => Left live) s t

theorem Leave.blockEnd {r : Nat} {s t : State} (h : Leave live (.ret r) s t) :
    BlockEnd live r s t := by
  refine ⟨fun hr => ?_, h.2 r rfl⟩
  exact (h.1 (by rw [hr])).mono fun _ _ _ hk =>
    ⟨hk.1, fun hZero => absurd hZero hk.2, fun hZero => absurd hZero hk.2⟩

theorem Done.blockEnd {r : Nat} {s t : State} (h : Beside (Done live) s t) : BlockEnd live r s t :=
  ⟨fun _ => h, h.mono fun _ _ _ hk => hk.ready.toLeft⟩

theorem blockEnd_of_ne {r : Nat} (hr : r ≠ 0) {s t : State}
    (h : Beside (fun _ => Left live) s t) :
    BlockEnd live r s t := ⟨fun hZero => absurd hZero hr, h⟩

theorem agrees_blockEnd {R : State → State → Prop} {x : Code Nat}
    (h : Agrees R x x (BlockEnd live) (Leave live)) :
    Agrees R (call x) (call x) (BlockEnd live) fun e _ _ => e = .spin :=
  agrees_call (h.conseq (fun _ _ hst => hst) (fun _ _ _ hst => hst)
    fun e s t hLeave r he => by subst he; exact hLeave.blockEnd)

theorem agrees_blockEnd' {R : State → State → Prop} {x : Code Nat}
    (h : Agrees R x x (BlockEnd live) (Leave live)) :
    Agrees R (call x) (call x) (BlockEnd live) (Leave live) :=
  (agrees_blockEnd h).conseq (fun _ _ hst => hst) (fun _ _ _ hst => hst)
    fun e _ _ he => by subst he; exact ⟨nofun, nofun⟩

/-- Behind the table of the bit length codes. -/
def Tabled (live : Prop) (f : Nat) (h h' : Head) : Prop :=
  Stage live 7 (fun h _ => h.t = 2) f h h' ∧ (f ≤ 8 → Stale h h')

theorem Stage.counted {f : Nat} {h h' : Head} (hs : Stage live 7 (fun h _ => h.t = 2) f h h')
    (hStale : Stale h h') (hOwn : f = 0 ∨ f = 7 ∨ f = 8) :
      (f = 0 ∨ (f = 7 ∨ f = 8) ∧ 0 < h.nl + h.nd) ∧
      Counted live (h.nl + h.nd) 0 h h' := by
  refine ⟨hOwn.imp_right fun hf => ⟨hf, hs.local_.counts (by omega) (by omega)⟩,
    ⟨hs.twin, ?_, ?_,
    hs.kind, rfl⟩, hStale, fun k hk => absurd hk (Nat.not_lt_zero k)⟩
  · have hSaved := hs.saved.mono (Nat.le_max_left 7 f)
    exact { hSaved with
      e := fun _ => hSaved.e (by decide), t := fun _ => hSaved.t (by decide)
      nl := fun _ => hSaved.nl (by decide), nd := fun _ => hSaved.nd (by decide)
      nb := fun _ => hSaved.nb (by decide), bl := fun _ => hSaved.bl (by decide)
      ll := fun _ => hSaved.ll (by decide), bd := fun h => absurd h (by decide) }
  · rcases hs.earlier with h | h <;> omega

/-! ### Stored blocks -/

/-- In a stored block. -/
structure Storing (live : Prop) (f : Nat) (h h' : Head) : Prop where
  twin : Twin live h h'
  e : h'.e = h.e
  t : h'.t = h.t
  type : h.t = 0
  flag : h.flag < 3 ∨ 15 ≤ h.flag
  n : f = 17 ∨ h.flag = 17 → h'.n = h.n

theorem Storing.saved {f g : Nat} {h h' : Head} (hs : Storing live f h h') : Saved g h h' :=
  Saved.of_type (by rw [hs.type]; decide) hs.e hs.t

theorem Storing.local_ {f g : Nat} {h h' : Head} (hs : Storing live f h h')
    (hg : g < 3 ∨ 15 ≤ g) (hn : g = 17 → h'.n = h.n) : Local g h h' where
  dynamic h3 h8 := by omega
  stale h3 h8 := by omega
  index h6 := by omega
  counts h7 h8 := by omega
  codes h9 h14 := by omega
  stored _ := hs.type
  n := hn

theorem Storing.keepable {f : Nat} (hf : 15 ≤ f) : Keepable live f (Storing live f) where
  left _ _ hs := hs.twin.toLeft
  same _ _ bb bk hs := hs.twin.save hs.saved (hs.local_ (Or.inr hf) fun h => hs.n (Or.inl h)) bb bk
  save _ _ bb bk hs := ⟨hs.twin.saveBits f bb bk, hs.e, hs.t, hs.type, Or.inr hf, fun h =>
    hs.n (Or.inl (h.elim (fun h => h) fun h => h))⟩

theorem Storing.setFlag {f g : Nat} {h h' : Head} (hs : Storing live f h h') (hg : g ≠ 17) :
    Storing live g h h' :=
  ⟨hs.twin, hs.e, hs.t, hs.type, hs.flag, fun h => hs.n (Or.inr (h.resolve_left hg))⟩

theorem Stage.storing {f : Nat} {h h' : Head} (hs : Stage live 3 kind f h h') (hType : h.t = 0) :
    (f = 0 ∨ 15 ≤ f) ∧ Storing live f h h' := by
  have hFlag : f = 0 ∨ 15 ≤ f := hs.reached.imp_right fun h3 => by
    by_contra h15
    by_cases h8 : f ≤ 8
    · have := hs.local_.dynamic h3 h8
      omega
    · exact (hs.local_.codes (by omega) (by omega)).1 hType
  refine ⟨hFlag, hs.twin, hs.saved.e (by omega), hs.saved.t (by omega), hType, ?_, fun h =>
    hs.local_.n ?_⟩
  · rcases hs.earlier with h | h <;> omega
  · rcases hs.earlier with h | h <;> omega

end Shutter.Gunzip
