import Shutter.Gunzip.Response

/-! The lines that `memmatch` takes from a block.  It tests for the end of the block behind the
read, and writes the terminator on the way out of the delimiter and of the end only, so a line is
right where its delimiter comes in time. -/

namespace Shutter.Gunzip

open Shutter.Stream (Segment)

/-- The bytes of a text up to its first `c`, which is the last of them. -/
def upTo (c : UInt8) : List UInt8 → List UInt8
  | [] => []
  | x :: t => if x = c then [x] else x :: upTo c t

theorem upTo_append {c : UInt8} {line : List UInt8} (hLine : c ∉ line) (rest : List UInt8) :
    upTo c (line ++ c :: rest) = line ++ [c] := by
  induction line with
  | nil => simp [upTo]
  | cons x line ih =>
    obtain ⟨hx, hLine⟩ := not_or.mp (mt List.mem_cons.mpr hLine)
    simp [upTo, Ne.symm hx, ih hLine]

theorem upTo_of_notMem {c : UInt8} {t : List UInt8} (h : c ∉ t) : upTo c t = t := by
  induction t with
  | nil => rfl
  | cons x t ih =>
    obtain ⟨hx, ht⟩ := not_or.mp (mt List.mem_cons.mpr h)
    simp [upTo, Ne.symm hx, ih ht]

section Lines

variable (m : Memory) (block : Segment) (c : UInt8)

/-- The offsets of the block at which the loop of `memmatch` reads. -/
def memmatchReads : Nat → Nat → List Nat
  | 0, _ => []
  | count + 1, src =>
    src :: if (m.from block)[src]?.getD 0 = c ∨ block.length ≤ src then []
           else memmatchReads count (src + 1)

variable {m block c}

/-- Inside the block, the memory is the block. -/
theorem Memory.from_getElem? {src : Nat} {t : List UInt8} {x : UInt8}
    (h : block.drop src = x :: t) : src < block.length ∧ (m.from block)[src]?.getD 0 = x := by
  have hGet : block[src]? = some x := by
    rw [← List.head?_drop, h]
    rfl
  obtain ⟨hLess, -⟩ := List.getElem?_eq_some_iff.mp hGet
  refine ⟨hLess, ?_⟩
  rw [Memory.from, List.getElem?_append_left hLess, hGet]
  rfl

theorem drop_succ {src : Nat} {t : List UInt8} {x : UInt8} (h : block.drop src = x :: t) :
    block.drop (src + 1) = t := by
  rw [← List.drop_drop, h]
  rfl

theorem memmatchLoop_next {src n : Nat} {t : List UInt8} {x : UInt8}
    (h : block.drop src = x :: t) (hx : x ≠ c) :
    memmatchLoop m block c (n + 1) src =
      (x :: (memmatchLoop m block c n (src + 1)).1, (memmatchLoop m block c n (src + 1)).2) := by
  obtain ⟨hLess, hGet⟩ := Memory.from_getElem? (m := m) h
  simp only [memmatchLoop, hGet, hx, Nat.not_le_of_lt hLess, or_self, if_false]

theorem memmatchReads_next {src n : Nat} {t : List UInt8} {x : UInt8}
    (h : block.drop src = x :: t) (hx : x ≠ c) :
    memmatchReads m block c (n + 1) src = src :: memmatchReads m block c n (src + 1) := by
  obtain ⟨hLess, hGet⟩ := Memory.from_getElem? (m := m) h
  rw [memmatchReads, hGet, if_neg (not_or.mpr ⟨hx, Nat.not_le_of_lt hLess⟩)]

/-- The delimiter ends the loop with a terminated line. -/
theorem memmatchLoop_found {line rest : List UInt8} {src n : Nat}
    (hDrop : block.drop src = line ++ c :: rest) (hLine : c ∉ line) (hn : line.length < n) :
    memmatchLoop m block c n src = (line ++ [c, 0], src + line.length) := by
  induction line generalizing src n with
  | nil =>
    obtain ⟨n, rfl⟩ := Nat.exists_eq_add_of_lt hn
    obtain ⟨-, hGet⟩ := Memory.from_getElem? (m := m) hDrop
    unfold memmatchLoop
    rw [hGet]
    exact if_pos (Or.inl rfl)
  | cons x line ih =>
    obtain ⟨hx, hLine⟩ := not_or.mp (mt List.mem_cons.mpr hLine)
    obtain ⟨n, rfl⟩ : ∃ k, n = k + 1 := ⟨n - 1, by simp at hn; omega⟩
    have hRest := ih (drop_succ hDrop) hLine (Nat.lt_of_succ_lt_succ hn)
    rw [memmatchLoop_next hDrop (Ne.symm hx), hRest, List.length_cons]
    exact Prod.ext rfl (by simp; omega)

theorem memmatchReads_found {line rest : List UInt8} {src n : Nat}
    (hDrop : block.drop src = line ++ c :: rest) (hLine : c ∉ line) (hn : line.length < n) :
    memmatchReads m block c n src = List.range' src (line.length + 1) := by
  induction line generalizing src n with
  | nil =>
    obtain ⟨n, rfl⟩ := Nat.exists_eq_add_of_lt hn
    obtain ⟨-, hGet⟩ := Memory.from_getElem? (m := m) hDrop
    unfold memmatchReads
    rw [hGet, if_pos (Or.inl rfl)]
    rfl
  | cons x line ih =>
    obtain ⟨hx, hLine⟩ := not_or.mp (mt List.mem_cons.mpr hLine)
    obtain ⟨n, rfl⟩ : ∃ k, n = k + 1 := ⟨n - 1, by simp at hn; omega⟩
    have hRest := ih (drop_succ hDrop) hLine (Nat.lt_of_succ_lt_succ hn)
    rw [memmatchReads_next hDrop (Ne.symm hx), hRest]
    rfl

/-- Without the delimiter the loop ends with its count, in front of the end of the block, or it
reads behind the block. -/
theorem memmatchLoop_missed {src n : Nat} (hMiss : c ∉ (block.drop src).take n) :
    memmatchLoop m block c n src = ((block.drop src).take n, src + n) ∨
      ∃ i ∈ memmatchReads m block c n src, block.length ≤ i := by
  induction n generalizing src with
  | zero => exact Or.inl (by simp [memmatchLoop])
  | succ n ih =>
    cases hDrop : block.drop src with
    | nil =>
      refine Or.inr ⟨src, ?_, List.drop_eq_nil_iff.mp hDrop⟩
      unfold memmatchReads
      exact List.mem_cons_self
    | cons x t =>
      rw [hDrop, List.take_succ_cons] at hMiss
      obtain ⟨hx, hMiss⟩ := not_or.mp (mt List.mem_cons.mpr hMiss)
      rw [memmatchLoop_next hDrop (Ne.symm hx), memmatchReads_next hDrop (Ne.symm hx),
        List.take_succ_cons]
      rw [← drop_succ hDrop] at hMiss ⊢
      rcases ih hMiss with hRun | ⟨i, hi, hLe⟩
      · rw [hRun]
        exact Or.inl (Prod.ext rfl (by simp; omega))
      · exact Or.inr ⟨i, List.mem_cons_of_mem _ hi, hLe⟩

variable (m block c)

/-- `memmatch` writes the line from `src` on, cut at the end of the block or after `count - 1`
bytes, with its terminator; it reads inside the block, and returns the offset behind the line. -/
def Extracts (old : List UInt8) (src count : Nat) : Prop :=
  let line := upTo c ((block.drop src).take (count - 1))
  (memmatchLoop m block c (count - 1) src).1 = line ++ [0] ∧
  (memmatch m block old src c count).2 = src + line.length ∧
  ∀ i ∈ memmatchReads m block c (count - 1) src, i < block.length

variable {m block c}

/-- `memmatch` extracts the line exactly when the delimiter is among the first `count - 1` bytes
from `src` on. -/
theorem memmatch_extracts_iff (m : Memory) (block : Segment) (c : UInt8) (old : List UInt8)
    (src count : Nat) (hStart : src ≤ block.length) (hCount : 2 ≤ count) :
    Extracts m block c old src count ↔ c ∈ (block.drop src).take (count - 1) := by
  obtain ⟨n, rfl⟩ : ∃ n, count = n + 2 := ⟨count - 2, by omega⟩
  rw [show n + 2 - 1 = n + 1 by omega]
  constructor
  · rintro ⟨hLine, -, hReads⟩
    rw [show n + 2 - 1 = n + 1 by omega] at hLine hReads
    by_contra hMiss
    rcases memmatchLoop_missed (m := m) hMiss with hRun | ⟨i, hi, hLe⟩
    · rw [hRun, upTo_of_notMem hMiss] at hLine
      have hLength := congrArg List.length hLine
      simp at hLength
    · have := hReads i hi
      omega
  · intro hMem
    obtain ⟨line, rest, hSplit, hNot⟩ := List.eq_append_cons_of_mem hMem
    have hLength := congrArg List.length hSplit
    simp only [List.length_take, List.length_drop, List.length_append, List.length_cons] at hLength
    have hDrop : block.drop src = line ++ c :: (rest ++ (block.drop src).drop (n + 1)) := by
      rw [← List.cons_append, ← List.append_assoc, ← hSplit, List.take_append_drop]
    have hRun := memmatchLoop_found (m := m) hDrop hNot (show line.length < n + 1 by omega)
    have hReads := memmatchReads_found (m := m) hDrop hNot (show line.length < n + 1 by omega)
    refine ⟨?_, ?_, fun i hi => ?_⟩
    · rw [show n + 2 - 1 = n + 1 by omega, hRun, hSplit, upTo_append hNot, List.append_assoc]
      rfl
    · rw [memmatch, show n + 2 - 1 = n + 1 by omega, hRun, hSplit, upTo_append hNot]
      simp
      omega
    · rw [show n + 2 - 1 = n + 1 by omega, hReads] at hi
      have := (List.mem_range'_1.mp hi).2
      omega

/-- The size line `a` of a block with one byte behind it. -/
theorem memmatch_extracts_size : Extracts quiet.toMemory [97, 13, 10, 31] 10 [] 0 10 :=
  (memmatch_extracts_iff quiet.toMemory [97, 13, 10, 31] 10 [] 0 10 (by decide) (by decide)).mpr
    (by decide)

/-- A block that ends within its size line is read behind its end. -/
theorem memmatch_extracts_fails :
    ¬∀ (m : Memory) (block : Segment) (c : UInt8) (old : List UInt8) (src count : Nat),
      src ≤ block.length → 2 ≤ count → Extracts m block c old src count := by
  intro h
  have hReads := (h quiet.toMemory [97, 13] 10 [] 0 10 (by decide) (by decide)).2.2 2 (by decide)
  simp at hReads

end Lines

end Shutter.Gunzip
