import Shutter.Gunzip.Positions

/-! The tables of `huft_build`.  Each covers the positions from the one it is made at up to a
boundary, and the stack holds those that the next position goes through. -/

namespace Shutter.Gunzip

open Shutter.Library

/-- A table: the number of tables before it on the way to it, the first of the positions that come
to it, and the number of bits of its index. -/
structure Place where
  level : Nat
  start : Nat
  bits : Nat

/-- The arguments and the lengths of a call of `huft_build`, and the length of the code at each
position with the values from it on. -/
structure Job where
  c : List Nat
  g : Nat
  l : Nat
  s : Nat
  d : Option (List Nat)
  e : Option (List Nat)
  codeAt : Nat → Nat × List Nat

/-- The table at the level of the stack. -/
def Building.top (s : Building) (t : Nat) : Nat := s.u[t]?.getD 0

namespace Job

variable (J : Job)

def stop (p : Place) : Nat := p.start + 2 ^ (J.g - J.l * p.level)

def Has (p : Place) (P : Nat) : Prop := p.start ≤ P ∧ P < J.stop p

/-- The index of the table for the pattern of a position. -/
def index (p : Place) (P : Nat) : Nat := reverseBits J.g P / 2 ^ (J.l * p.level) % 2 ^ p.bits

/-- The table lies within the patterns, and its codes are not longer than its index, unless the
next tables have them. -/
structure Fits (p : Place) : Prop where
  pos : 0 < p.bits
  below : J.l * p.level < J.g
  fits : J.l * p.level + p.bits ≤ J.g
  align : 2 ^ (J.g - J.l * p.level) ∣ p.start
  lt : p.start < 2 ^ J.g
  le : p.bits ≤ J.l
  enough : p.bits = J.l ∨ J.stop p ≤ codeEnd J.c J.g (J.l * p.level + p.bits)

/-- The entry that links a table to the next one. -/
def link (p : Place) (q : Nat) : Huft := ⟨16 + p.bits, J.l, 0, q⟩

/-- The entry of a table for a position is that of its code, or leads to the next table for it. -/
inductive Leads (place : Nat → Place) (count : Nat) (p : Place) (P : Nat) (r : Huft) : Prop
  | value {k : Nat} {v : List Nat} : J.codeAt P = (k, v) → J.l * p.level < k →
      k ≤ J.l * p.level + p.bits → entry J.s J.d J.e (k - J.l * p.level) v = some r →
      Leads place count p P r
  | table {q : Nat} : q < count → (place q).level = p.level + 1 → J.Has (place q) P →
      p.bits = J.l → r = J.link (place q) q → Leads place count p P r

/-- The tables have an entry for each position before `S` that comes to them. -/
structure Filled (place : Nat → Place) (S : Nat) (tables : Tables) : Prop where
  root : 0 < tables.length → place 0 = ⟨0, 0, J.l⟩
  size : ∀ q < tables.length, 2 ^ (place q).bits ≤ (tables[q]?.getD []).length
  fits : ∀ q < tables.length, J.Fits (place q)
  leads : ∀ q < tables.length, ∀ P, J.Has (place q) P → P < S →
    J.Leads place tables.length (place q) P (HuftPtr.get ⟨tables, q, J.index (place q) P⟩)

/-- The stacks hold the tables on the way to the position `S`, which are linked.  All others are
finished. -/
structure Stacked (place : Nat → Place) (S : Nat) (s : Building) : Prop where
  u_length : s.u.length = bmax
  x_length : s.x.length = bmax + 1
  first : s.x[0]?.getD 0 = 0
  i : s.i = reverseBits J.g S
  levels : s.levels ≤ bmax
  mem : ∀ t < s.levels, s.top t < s.tables.length
  level : ∀ t < s.levels, (place (s.top t)).level = t
  pattern : ∀ t < s.levels, s.x[t]?.getD 0 = reverseBits J.g (place (s.top t)).start
  start : ∀ t < s.levels, (place (s.top t)).start ≤ S
  nested : ∀ t, t + 1 < s.levels → J.stop (place (s.top (t + 1))) ≤ J.stop (place (s.top t))
  link : ∀ t, t + 1 < s.levels → (place (s.top t)).bits = J.l ∧
    ∀ P, J.Has (place (s.top (t + 1))) P →
      HuftPtr.get ⟨s.tables, s.top t, J.index (place (s.top t)) P⟩ =
        J.link (place (s.top (t + 1))) (s.top (t + 1))
  dead : ∀ q < s.tables.length, (∃ t < s.levels, s.top t = q) ∨ J.stop (place q) ≤ S
  align : 2 ^ (J.g - J.l * s.levels) ∣ S

/-- `S` comes to the tables of the stack. -/
def Inside (place : Nat → Place) (S : Nat) (s : Building) : Prop :=
  ∀ t < s.levels, S < J.stop (place (s.top t))

section Index

variable {J} {p : Place} {P Q : Nat}

theorem Fits.has_iff (h : J.Fits p) : J.Has p P ↔
    P / 2 ^ (J.g - J.l * p.level) = p.start / 2 ^ (J.g - J.l * p.level) :=
  (div_eq_iff_of_dvd h.align).symm

theorem Fits.has_lt (h : J.Fits p) (hP : J.Has p P) : P < 2 ^ J.g :=
  Nat.lt_of_lt_of_le hP.2 (align_le h.align (Nat.sub_le _ _) h.lt)

/-- The lowest bits of the indices of two positions are the same when their patterns begin with the
same bits. -/
theorem Fits.index_mod_iff (h : J.Fits p) (hP : J.Has p P) (hQ : J.Has p Q) {m : Nat}
    (hm : m ≤ p.bits) : J.index p P % 2 ^ m = J.index p Q % 2 ^ m ↔
      P / 2 ^ (J.g - (J.l * p.level + m)) = Q / 2 ^ (J.g - (J.l * p.level + m)) := by
  have hLow : ∀ R, J.index p R % 2 ^ m = reverseBits J.g R / 2 ^ (J.l * p.level) % 2 ^ m :=
    fun R => Nat.mod_mod_of_dvd _ (pow_dvd_pow 2 hm)
  have hFits := h.fits
  have hSame : reverseBits J.g P % 2 ^ (J.l * p.level) = reverseBits J.g Q % 2 ^ (J.l * p.level) :=
    (reverseBits_mod_eq_iff (Nat.le_of_lt h.below) (h.has_lt hP) (h.has_lt hQ)).mpr
      ((h.has_iff.mp hP).trans (h.has_iff.mp hQ).symm)
  rw [hLow, hLow, ← reverseBits_mod_eq_iff (by omega) (h.has_lt hP) (h.has_lt hQ), Nat.pow_add,
    Nat.mod_mul, Nat.mod_mul, hSame]
  constructor
  · intro hEq
    rw [hEq]
  · intro hEq
    exact Nat.eq_of_mul_eq_mul_left (Nat.two_pow_pos _) (Nat.add_left_cancel hEq)

theorem index_lt (p : Place) (P : Nat) : J.index p P < 2 ^ p.bits :=
  Nat.mod_lt _ (Nat.two_pow_pos _)

end Index

end Job

/-! ### A new table -/

theorem get_append {tables : Tables} {q : Nat} (h : q < tables.length) (new : List Huft) (i : Nat) :
    HuftPtr.get ⟨tables ++ [new], q, i⟩ = HuftPtr.get ⟨tables, q, i⟩ := by
  unfold HuftPtr.get
  rw [List.getElem?_append_left h]

theorem getElem?_modify_ne {tables : Tables} {q q' : Nat} (f : List Huft → List Huft)
    (h : q' ≠ q) :
    (tables.modify q f)[q']? = tables[q']? := by
  simp [Ne.symm h]

theorem getElem?_modify_eq {tables : Tables} {q : Nat} (f : List Huft → List Huft)
    (h : q < tables.length) : ((tables.modify q f)[q]?).getD [] = f (tables[q]?.getD []) := by
  simp [List.getElem?_eq_getElem h]

/-- The body of the loop of `makeTables`. -/
def newTable (c : List Nat) (g l k a : Nat) (s : Building) : Building :=
  let w := l * s.levels
  let j := tableBits c g l w k a
  let q := s.tables.length
  let tables := s.tables ++ [List.replicate (2 ^ j) ⟨0, 0, 0, 0⟩]
  let tables :=
    if s.levels = 0 then tables
    else tables.modify (s.u[s.levels - 1]?.getD 0)
      fun table => table.set (s.i / 2 ^ (w - l)) ⟨16 + j, l, 0, q⟩
  { s with levels := s.levels + 1, u := s.u.set s.levels q,
           x := if s.levels = 0 then s.x else s.x.set s.levels s.i, tables }

theorem makeTables_succ (c : List Nat) (g l k a fuel : Nat) (s : Building) :
    makeTables c g l k a (fuel + 1) s =
      if l * s.levels < k then makeTables c g l k a fuel (newTable c g l k a s) else s := rfl

section NewTable

variable {J : Job} {place : Nat → Place} {S k a : Nat} {s : Building}

/-- The place of a new table. -/
def Job.newPlace (J : Job) (k a S : Nat) (s : Building) : Place :=
  ⟨s.levels, S, if s.levels = 0 then J.l else tableBits J.c J.g J.l (J.l * s.levels) k a⟩

theorem Job.Filled.congr {place' : Nat → Place} {tables : Tables} (h : J.Filled place S tables)
    (hPlace : ∀ q < tables.length, place' q = place q) : J.Filled place' S tables := by
  refine ⟨fun hPos => (hPlace 0 hPos).trans (h.root hPos), fun q hq =>
    hPlace q hq ▸ h.size q hq,
    fun q hq => hPlace q hq ▸ h.fits q hq, fun q hq P hHas hP => ?_⟩
  rw [hPlace q hq] at hHas ⊢
  cases h.leads q hq P hHas hP with
  | value hCode hLow hHigh hEntry => exact .value hCode hLow hHigh hEntry
  | table hq' hLevel hHas' hBits hr =>
    rw [← hPlace _ hq'] at hLevel hHas' hr
    exact .table hq' hLevel hHas' hBits hr

theorem Job.Leads.mono {count count' : Nat} {p : Place} {P : Nat} {r : Huft}
    (h : J.Leads place count p P r) (hLe : count ≤ count') : J.Leads place count' p P r := by
  cases h with
  | value hCode hLow hHigh hEntry => exact .value hCode hLow hHigh hEntry
  | table hq hLevel hHas hBits hr => exact .table (Nat.lt_of_lt_of_le hq hLe) hLevel hHas hBits hr

/-- The entries below `S` stay when others change. -/
theorem Job.Filled.change {tables tables' : Tables} (h : J.Filled place S tables)
    (hLength : tables'.length = tables.length)
    (hSize : ∀ q < tables.length, (tables'[q]?.getD []).length = (tables[q]?.getD []).length)
    (hGet : ∀ q < tables.length, ∀ P, J.Has (place q) P → P < S →
      HuftPtr.get ⟨tables', q, J.index (place q) P⟩ = HuftPtr.get
        ⟨tables, q, J.index (place q) P⟩) :
    J.Filled place S tables' := by
  refine ⟨hLength ▸ h.root, fun q hq => ?_, hLength ▸ h.fits, fun q hq P hHas hP => ?_⟩
  · rw [hLength] at hq
    rw [hSize q hq]
    exact h.size q hq
  · rw [hLength] at hq ⊢
    rw [hGet q hq P hHas hP]
    exact h.leads q hq P hHas hP

/-- A table whose positions are still to come. -/
theorem Job.Filled.append {tables : Tables} {new : List Huft} (h : J.Filled place S tables)
    (hFits : J.Fits (place tables.length)) (hStart : S ≤ (place tables.length).start)
    (hSize : 2 ^ (place tables.length).bits ≤ new.length)
    (hRoot : tables.length = 0 → place 0 = ⟨0, 0, J.l⟩) :
    J.Filled place S (tables ++ [new]) := by
  have hLength : (tables ++ [new]).length = tables.length + 1 := List.length_append
  have hOld : ∀ q, q < tables.length + 1 → q = tables.length ∨ q < tables.length :=
    fun q hq => by omega
  refine ⟨fun _ => ?_, fun q hq => ?_, fun q hq => ?_, fun q hq P hHas hP => ?_⟩
  · by_cases hZero : tables.length = 0
    · exact hRoot hZero
    · exact h.root (Nat.pos_of_ne_zero hZero)
  · rcases hOld q (hLength ▸ hq) with rfl | hq
    · rw [List.getElem?_concat_length]
      exact hSize
    · rw [List.getElem?_append_left hq]
      exact h.size q hq
  · rcases hOld q (hLength ▸ hq) with rfl | hq
    · exact hFits
    · exact h.fits q hq
  · rcases hOld q (hLength ▸ hq) with rfl | hq
    · exact absurd (Nat.lt_of_le_of_lt hHas.1 hP) (Nat.not_lt_of_le hStart)
    · rw [get_append hq]
      exact (h.leads q hq P hHas hP).mono (by omega)

theorem get_set_ne {tables : Tables} {q i i' : Nat} (r : Huft) (hq : q < tables.length)
    (h : i ≠ i') :
    HuftPtr.get ⟨tables.modify q fun t => t.set i r, q, i'⟩ = HuftPtr.get
      ⟨tables, q, i'⟩ := by
  show ((((tables.modify q fun t => t.set i r)[q]?).getD [])[i']?).getD _ = _
  rw [getElem?_modify_eq _ hq, List.getElem?_set_ne h]
  rfl

theorem get_set_eq {tables : Tables} {q i : Nat} (r : Huft) (hq : q < tables.length)
    (hi : i < (tables[q]?.getD []).length) :
    HuftPtr.get ⟨tables.modify q fun t => t.set i r, q, i⟩ = r := by
  show ((((tables.modify q fun t => t.set i r)[q]?).getD [])[i]?).getD _ = _
  rw [getElem?_modify_eq _ hq, List.getElem?_set_self hi]
  rfl

theorem get_modify_ne {tables : Tables} {q q' : Nat} (f : List Huft → List Huft) (h : q' ≠ q)
    (i : Nat) : HuftPtr.get ⟨tables.modify q f, q', i⟩ = HuftPtr.get ⟨tables, q', i⟩ := by
  unfold HuftPtr.get
  rw [getElem?_modify_ne f h]

/-- The table of a level that is too short for a code has all the bits that it can have. -/
theorem Job.Fits.bits_eq {p : Place} (h : J.Fits p) (hNext : Next J.c J.g S k a)
    (hShort : J.l * p.level + p.bits < k ∨ J.l * (p.level + 1) < k) (hStop : S < J.stop p) :
    p.bits = J.l := by
  refine h.enough.resolve_right fun hEnd => ?_
  have hLe := h.le
  rw [Nat.mul_succ] at hShort
  have hBefore := hNext.shorter (J.l * p.level + p.bits) (by omega)
  omega

/-- A code of length `k` comes next, and needs a table that is not there. -/
structure Job.Needs (J : Job) (place : Nat → Place) (S k a : Nat) (s : Building) : Prop where
  complete : Complete J.c J.g J.l
  next : Next J.c J.g S k a
  filled : J.Filled place S s.tables
  stacked : J.Stacked place S s
  inside : J.Inside place S s
  deep : J.l * s.levels < k
  new : place s.tables.length = J.newPlace k a S s

namespace Job.Needs

theorem start_eq (h : J.Needs place S k a s) (hZero : s.levels = 0) : S = 0 := by
  have hAlign := h.stacked.align
  rw [hZero, Nat.mul_zero, Nat.sub_zero] at hAlign
  exact Nat.eq_zero_of_dvd_of_lt hAlign (h.next.lt h.complete)

theorem first (h : J.Needs place S k a s) (hZero : s.levels = 0) : k ≤ J.l :=
  h.next.first h.complete (h.start_eq hZero)

theorem fits (h : J.Needs place S k a s) : J.Fits (place s.tables.length) := by
  have hLe := h.next.le
  have hLt := h.next.lt h.complete
  have hAlign := h.stacked.align
  have hDeep := h.deep
  rw [h.new, newPlace]
  by_cases hZero : s.levels = 0
  · rw [hZero] at hAlign hDeep
    rw [if_pos hZero, hZero]
    exact ⟨h.complete.pos, Nat.lt_of_lt_of_le hDeep hLe, by simpa using h.complete.le,
      hAlign, hLt,
      Nat.le_refl _, Or.inl rfl⟩
  · have hWide : J.l ≤ J.l * s.levels := Nat.le_mul_of_pos_right _ (Nat.pos_of_ne_zero hZero)
    obtain ⟨hSome, hBits, hFits, hEnough⟩ := tableBits_spec h.complete h.next hDeep hWide hAlign
    rw [if_neg hZero]
    exact ⟨by simp only; omega, Nat.lt_of_lt_of_le hDeep hLe, hFits, hAlign, hLt,
      hBits, hEnough⟩

/-- The last table has all its bits. -/
theorem last_bits (h : J.Needs place S k a s) {t : Nat} (ht : t + 1 = s.levels) :
    (place (s.top t)).bits = J.l := by
  have hFit := h.filled.fits _ (h.stacked.mem t (by omega))
  refine hFit.bits_eq h.next (Or.inr ?_) (h.inside t (by omega))
  rw [h.stacked.level t (by omega), ht]
  exact h.deep

/-- The position goes through the entry of the last table that is set. -/
theorem index_eq (h : J.Needs place S k a s) {t : Nat} (ht : t + 1 = s.levels) :
    s.i / 2 ^ (J.l * s.levels - J.l) = J.index (place (s.top t)) S := by
  have hLevel := h.stacked.level t (by omega)
  have hWidth : J.l * s.levels - J.l = J.l * t := by rw [← ht, Nat.mul_succ, Nat.add_sub_cancel]
  have hLe : J.l * s.levels ≤ J.g := Nat.le_of_lt (Nat.lt_of_lt_of_le h.deep h.next.le)
  have hLt : reverseBits J.g S < 2 ^ (J.l * s.levels) := reverseBits_lt_of_dvd hLe h.stacked.align
  rw [← ht, Nat.mul_succ, Nat.pow_add] at hLt
  rw [hWidth, h.stacked.i, Job.index, hLevel, h.last_bits ht,
    Nat.mod_eq_of_lt (Nat.div_lt_of_lt_mul hLt)]

/-- The positions of the last table with the same entry as `S` are those of the new one. -/
theorem index_eq_iff (h : J.Needs place S k a s) {t P : Nat} (ht : t + 1 = s.levels)
    (hP : J.Has (place (s.top t)) P) :
    J.index (place (s.top t)) P = J.index (place (s.top t)) S ↔
      S ≤ P ∧ P < S + 2 ^ (J.g - J.l * s.levels) := by
  have hFit := h.filled.fits _ (h.stacked.mem t (by omega))
  have hHere : J.Has (place (s.top t)) S :=
    ⟨h.stacked.start t (by omega), h.inside t (by omega)⟩
  have hIff := hFit.index_mod_iff hP hHere (Nat.le_refl _)
  have hSelf : ∀ R, J.index (place (s.top t)) R % 2 ^ (place (s.top t)).bits =
      J.index (place (s.top t)) R := fun R => Nat.mod_eq_of_lt (index_lt _ R)
  have hWidth : J.l * t + J.l = J.l * s.levels := by rw [← ht, Nat.mul_succ]
  rwa [hSelf, hSelf, h.stacked.level t (by omega), h.last_bits ht, hWidth,
    div_eq_iff_of_dvd h.stacked.align] at hIff

theorem new_size (h : J.Needs place S k a s) : (place s.tables.length).bits ≤
    tableBits J.c J.g J.l (J.l * s.levels) k a := by
  rw [h.new, newPlace]
  by_cases hZero : s.levels = 0
  · obtain rfl := h.start_eq hZero
    simp only [hZero, Nat.mul_zero, if_pos]
    exact tableBits_first h.complete h.next (h.first hZero)
  · simp only [if_neg hZero]
    exact Nat.le_refl _

theorem newTable_filled (h : J.Needs place S k a s) :
    J.Filled place S (newTable J.c J.g J.l k a s).tables := by
  have hRoot : s.tables.length = 0 → place 0 = ⟨0, 0, J.l⟩ := fun hNone => by
    have hZero : s.levels = 0 := by
      by_contra hSome
      have := h.stacked.mem 0 (Nat.pos_of_ne_zero hSome)
      omega
    have hPlace := h.new
    rwa [hNone, newPlace, if_pos hZero, hZero, h.start_eq hZero] at hPlace
  have hSize : 2 ^ (place s.tables.length).bits ≤
      (List.replicate (2 ^ tableBits J.c J.g J.l (J.l * s.levels) k a)
        (⟨0, 0, 0, 0⟩ : Huft)).length := by
    rw [List.length_replicate]
    exact Nat.pow_le_pow_right Nat.two_pos h.new_size
  have hAppend := h.filled.append h.fits (by rw [h.new]; exact Nat.le_refl S) hSize hRoot
  by_cases hZero : s.levels = 0
  · simp only [newTable, if_pos hZero]
    exact hAppend
  · obtain ⟨t, ht⟩ : ∃ t, t + 1 = s.levels := ⟨s.levels - 1, by omega⟩
    have hLast : s.levels - 1 = t := by omega
    simp only [newTable, if_neg hZero, hLast, h.index_eq ht]
    refine hAppend.change (List.length_modify ..) (fun q hq => ?_) fun q hq P hHas hP => ?_
    · by_cases hSame : q = s.top t
      · subst hSame
        exact (congrArg List.length (getElem?_modify_eq _ hq)).trans (List.length_set ..)
      · exact congrArg (fun o => (Option.getD o []).length) (getElem?_modify_ne _ hSame)
    · by_cases hSame : q = s.top t
      · subst hSame
        refine get_set_ne _ hq fun hEq => ?_
        have := (h.index_eq_iff ht hHas).mp hEq.symm
        omega
      · exact get_modify_ne _ hSame _

theorem newTable_top {t : Nat} (ht : t < s.levels) :
    (newTable J.c J.g J.l k a s).top t = s.top t := by
  unfold Building.top newTable
  rw [List.getElem?_set_ne (by omega)]

theorem levels_lt (h : J.Needs place S k a s) : s.levels < bmax := by
  have hLevels : s.levels ≤ J.l * s.levels := Nat.le_mul_of_pos_left _ h.complete.pos
  have := h.deep
  have := h.next.le
  have := h.complete.max
  omega

theorem newTable_top_new (h : J.Needs place S k a s) :
    (newTable J.c J.g J.l k a s).top s.levels = s.tables.length := by
  unfold Building.top newTable
  rw [List.getElem?_set_self (h.stacked.u_length ▸ h.levels_lt)]
  rfl

theorem newTable_length (k a : Nat) (s : Building) :
    (newTable J.c J.g J.l k a s).tables.length = s.tables.length + 1 := by
  unfold newTable
  split
  · exact List.length_append
  · exact (List.length_modify ..).trans List.length_append

theorem new_start (h : J.Needs place S k a s) : (place s.tables.length).start = S := by
  rw [h.new]
  rfl

theorem new_stop (h : J.Needs place S k a s) :
    J.stop (place s.tables.length) = S + 2 ^ (J.g - J.l * s.levels) := by
  rw [h.new]
  rfl

theorem newTable_get {q : Nat} (hq : q < s.tables.length)
    (hOther : ∀ t, t + 1 = s.levels → q ≠ s.top t) (i : Nat) :
    HuftPtr.get ⟨(newTable J.c J.g J.l k a s).tables, q, i⟩ = HuftPtr.get
      ⟨s.tables, q, i⟩ := by
  by_cases hZero : s.levels = 0
  · simp only [newTable, if_pos hZero]
    exact get_append hq _ i
  · simp only [newTable, if_neg hZero]
    exact (get_modify_ne _ (hOther (s.levels - 1) (by omega)) i).trans (get_append hq _ i)

/-- The entry of the last table that leads to the new one. -/
theorem newTable_get_link (h : J.Needs place S k a s) {t P : Nat} (ht : t + 1 = s.levels)
    (hP : J.Has (place s.tables.length) P) (hHas : J.Has (place (s.top t)) P) :
    HuftPtr.get ⟨(newTable J.c J.g J.l k a s).tables, s.top t, J.index (place (s.top t)) P⟩ =
      J.link (place s.tables.length) s.tables.length := by
  have hZero : s.levels ≠ 0 := by omega
  have hLast : s.levels - 1 = t := by omega
  have hTop : s.top t < s.tables.length := h.stacked.mem t (by omega)
  have hStart : S ≤ P ∧ P < S + 2 ^ (J.g - J.l * s.levels) := by
    rw [← h.new_stop]
    exact ⟨h.new_start ▸ hP.1, hP.2⟩
  rw [(h.index_eq_iff ht hHas).mpr hStart, ← h.index_eq ht]
  simp only [newTable, if_neg hZero, hLast]
  refine (get_set_eq _ (Nat.lt_of_lt_of_le hTop (by simp)) ?_).trans ?_
  · rw [List.getElem?_append_left hTop, h.index_eq ht]
    exact Nat.lt_of_lt_of_le (index_lt _ _) (h.filled.size _ hTop)
  · rw [link, h.new, newPlace, if_neg hZero]

/-- What holds of each table on the stack and of the new one holds of each table behind the step. -/
theorem forall_top (h : J.Needs place S k a s) {p : Nat → Nat → Prop}
    (hOld : ∀ t < s.levels, p t (s.top t)) (hNew : p s.levels s.tables.length) :
    ∀ t < s.levels + 1, p t ((newTable J.c J.g J.l k a s).top t) := by
  intro t ht
  rcases Nat.lt_succ_iff_lt_or_eq.mp ht with ht | rfl
  · rw [newTable_top ht]
    exact hOld t ht
  · rw [h.newTable_top_new]
    exact hNew

/-- The same for each two neighbours: the new table lies above the last one. -/
theorem forall_top_succ (h : J.Needs place S k a s) {p : Nat → Nat → Prop}
    (hOld : ∀ t, t + 1 < s.levels → p (s.top t) (s.top (t + 1)))
    (hNew : ∀ t, t + 1 = s.levels → p (s.top t) s.tables.length) :
    ∀ t, t + 1 < s.levels + 1 → p ((newTable J.c J.g J.l k a s).top t)
      ((newTable J.c J.g J.l k a s).top (t + 1)) := by
  intro t ht
  rw [newTable_top (Nat.lt_of_succ_lt_succ ht)]
  rcases Nat.lt_succ_iff_lt_or_eq.mp ht with ht | ht
  · rw [newTable_top ht]
    exact hOld t ht
  · rw [ht, h.newTable_top_new]
    exact hNew t ht

/-- The new table ends before the last one does. -/
theorem new_stop_le (h : J.Needs place S k a s) {t : Nat} (ht : t + 1 = s.levels) :
    J.stop (place s.tables.length) ≤ J.stop (place (s.top t)) := by
  have hLevel := h.stacked.level t (by omega)
  have hWide : J.l * t ≤ J.l * s.levels := Nat.mul_le_mul_left _ (by omega)
  have hAlign := (h.filled.fits _ (h.stacked.mem t (by omega))).align
  rw [h.new_stop]
  apply add_le_of_dvd h.stacked.align _ (h.inside t (by omega))
  apply Nat.dvd_add
  · exact Nat.dvd_trans (pow_dvd_pow 2 (by rw [hLevel]; omega)) hAlign
  · rw [hLevel]
    exact pow_dvd_pow 2 (by omega)

theorem newTable_x_length (k a : Nat) (s : Building) :
    (newTable J.c J.g J.l k a s).x.length = s.x.length := by
  unfold newTable
  simp only
  split
  · rfl
  · exact List.length_set ..

theorem newTable_x {t : Nat} (ht : t ≠ s.levels ∨ s.levels = 0) :
    (newTable J.c J.g J.l k a s).x[t]? = s.x[t]? := by
  unfold newTable
  simp only
  split
  · rfl
  · rw [List.getElem?_set_ne (by omega)]

theorem newTable_x_new (h : J.Needs place S k a s) :
    (newTable J.c J.g J.l k a s).x[s.levels]?.getD 0 = reverseBits J.g S := by
  by_cases hZero : s.levels = 0
  · rw [newTable_x (Or.inr hZero), hZero, h.stacked.first, h.start_eq hZero, reverseBits_zero]
  · have := h.levels_lt
    simp only [newTable, if_neg hZero]
    rw [List.getElem?_set_self (by rw [h.stacked.x_length]; omega), h.stacked.i]
    rfl

theorem newTable_pattern (h : J.Needs place S k a s) : ∀ t < s.levels + 1,
    (newTable J.c J.g J.l k a s).x[t]?.getD 0 =
      reverseBits J.g (place ((newTable J.c J.g J.l k a s).top t)).start := by
  refine h.forall_top (p := fun t q => (newTable J.c J.g J.l k a s).x[t]?.getD 0 =
    reverseBits J.g (place q).start) (fun t ht => ?_) ?_
  · rw [newTable_x (Or.inl ht.ne)]
    exact h.stacked.pattern t ht
  · rw [h.newTable_x_new, h.new_start]

/-- The entries of the tables below the last one stay, and the one of the last leads to the new
table. -/
theorem newTable_link (h : J.Needs place S k a s) :
    ∀ t, t + 1 < s.levels + 1 → (place ((newTable J.c J.g J.l k a s).top t)).bits = J.l ∧
      ∀ P, J.Has (place ((newTable J.c J.g J.l k a s).top (t + 1))) P →
        HuftPtr.get ⟨(newTable J.c J.g J.l k a s).tables, (newTable J.c J.g J.l k a s).top t,
          J.index (place ((newTable J.c J.g J.l k a s).top t)) P⟩ =
          J.link (place ((newTable J.c J.g J.l k a s).top (t + 1)))
            ((newTable J.c J.g J.l k a s).top (t + 1)) := by
  apply h.forall_top_succ (p := fun q q' => (place q).bits = J.l ∧ ∀ P, J.Has (place q') P →
    HuftPtr.get ⟨(newTable J.c J.g J.l k a s).tables, q, J.index (place q) P⟩ =
      J.link (place q') q')
  · intro t ht
    have hBelow : t < s.levels := Nat.lt_of_succ_lt ht
    refine ⟨(h.stacked.link t ht).1, fun P hP => ?_⟩
    rw [newTable_get (h.stacked.mem t hBelow) fun t' ht' hEq => ?_]
    · exact (h.stacked.link t ht).2 P hP
    · have hSame := h.stacked.level t hBelow
      rw [hEq, h.stacked.level t' (by omega)] at hSame
      omega
  · intro t ht
    refine ⟨h.last_bits ht, fun P hP => h.newTable_get_link ht hP ⟨?_, ?_⟩⟩
    · exact Nat.le_trans (h.stacked.start t (by omega)) (h.new_start ▸ hP.1)
    · exact Nat.lt_of_lt_of_le hP.2 (h.new_stop_le ht)

theorem newTable_dead (h : J.Needs place S k a s) {q : Nat} (hq : q < s.tables.length + 1) :
    (∃ t < s.levels + 1, (newTable J.c J.g J.l k a s).top t = q) ∨ J.stop (place q) ≤ S := by
  rcases Nat.lt_succ_iff_lt_or_eq.mp hq with hOld | rfl
  · refine (h.stacked.dead q hOld).imp_left fun ⟨t, ht, hTop⟩ => ?_
    exact ⟨t, Nat.lt_succ_of_lt ht, (newTable_top ht).trans hTop⟩
  · exact Or.inl ⟨s.levels, Nat.lt_succ_self _, h.newTable_top_new⟩

theorem newTable_stacked (h : J.Needs place S k a s) :
    J.Stacked place S (newTable J.c J.g J.l k a s) where
  u_length := (List.length_set ..).trans h.stacked.u_length
  x_length := (newTable_x_length k a s).trans h.stacked.x_length
  first := by
    rw [newTable_x (by omega)]
    exact h.stacked.first
  i := h.stacked.i
  levels := h.levels_lt
  mem := by
    rw [newTable_length]
    exact h.forall_top (p := fun _ q => q < s.tables.length + 1)
      (fun t ht => Nat.lt_succ_of_lt (h.stacked.mem t ht)) (Nat.lt_succ_self _)
  level := h.forall_top (p := fun t q => (place q).level = t) h.stacked.level
    (by rw [h.new]; rfl)
  pattern := h.newTable_pattern
  start := h.forall_top (p := fun _ q => (place q).start ≤ S) h.stacked.start h.new_start.le
  nested := h.forall_top_succ (p := fun q q' => J.stop (place q') ≤ J.stop (place q))
    h.stacked.nested fun _ => h.new_stop_le
  link := h.newTable_link
  dead := by
    rw [newTable_length]
    exact fun _ => h.newTable_dead
  align := by
    apply Nat.dvd_trans (pow_dvd_pow 2 _) h.stacked.align
    exact Nat.sub_le_sub_left (Nat.mul_le_mul_left _ (Nat.le_succ _)) _

theorem newTable_inside (h : J.Needs place S k a s) :
    J.Inside place S (newTable J.c J.g J.l k a s) :=
  h.forall_top (p := fun _ q => S < J.stop (place q)) h.inside <| by
    rw [h.new_stop]
    exact Nat.lt_add_of_pos_right (Nat.two_pow_pos _)

end Job.Needs

/-- The tables that a code needs are there. -/
structure Job.Ready (J : Job) (place : Nat → Place) (S k : Nat) (s : Building) : Prop where
  filled : J.Filled place S s.tables
  stacked : J.Stacked place S s
  inside : J.Inside place S s
  above : J.l * (s.levels - 1) < k

theorem Job.Ready.congr {place' : Nat → Place} (h : J.Ready place S k s)
    (hPlace : ∀ q < s.tables.length, place' q = place q) : J.Ready place' S k s := by
  have hTop : ∀ t < s.levels, place' (s.top t) = place (s.top t) :=
    fun t ht => hPlace _ (h.stacked.mem t ht)
  refine ⟨h.filled.congr hPlace, ?_, fun t ht => hTop t ht ▸ h.inside t ht, h.above⟩
  refine { h.stacked with
    level := fun t ht => hTop t ht ▸ h.stacked.level t ht
    pattern := fun t ht => hTop t ht ▸ h.stacked.pattern t ht
    start := fun t ht => hTop t ht ▸ h.stacked.start t ht
    nested := fun t ht => ?_
    link := fun t ht => ?_
    dead := fun q hq => hPlace q hq ▸ h.stacked.dead q hq }
  · rw [hTop _ ht, hTop t (Nat.lt_of_succ_lt ht)]
    exact h.stacked.nested t ht
  · rw [hTop _ ht, hTop t (Nat.lt_of_succ_lt ht)]
    exact h.stacked.link t ht

/-- The loop makes the tables that the next code needs. -/
theorem makeTables_spec (hC : Complete J.c J.g J.l) (hNext : Next J.c J.g S k a)
    (h : J.Ready place S k s) {fuel : Nat}
    (hFuel : bmax ≤ s.levels + fuel) :
    ∃ place', J.Ready place' S k (makeTables J.c J.g J.l k a fuel s) ∧
      k ≤ J.l * (makeTables J.c J.g J.l k a fuel s).levels ∧
      (makeTables J.c J.g J.l k a fuel s).p = s.p := by
  induction fuel generalizing place s with
  | zero =>
    refine ⟨place, h, ?_, rfl⟩
    have hLevels : s.levels ≤ J.l * s.levels := Nat.le_mul_of_pos_left _ hC.pos
    have := hNext.le
    have := hC.max
    show k ≤ J.l * s.levels
    omega
  | succ fuel ih =>
    rw [makeTables_succ]
    by_cases hDeep : J.l * s.levels < k
    · rw [if_pos hDeep]
      let place' := Function.update place s.tables.length (J.newPlace k a S s)
      have hSame : ∀ q < s.tables.length, place' q = place q := fun q hq =>
        Function.update_of_ne (Nat.ne_of_lt hq) _ _
      have h' := h.congr hSame
      have hNeeds : J.Needs place' S k a s := ⟨hC, hNext, h'.filled, h'.stacked, h'.inside, hDeep,
        Function.update_self _ _ _⟩
      exact ih ⟨hNeeds.newTable_filled, hNeeds.newTable_stacked, hNeeds.newTable_inside, hDeep⟩
        (show bmax ≤ s.levels + 1 + fuel by omega)
    · rw [if_neg hDeep]
      exact ⟨place, h, Nat.le_of_not_lt hDeep, rfl⟩

end NewTable

end Shutter.Gunzip
